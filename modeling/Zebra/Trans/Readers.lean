import Zebra.Trans.Register

/-!
# Readers that keep their register

A reader keeps the register it has open as long as the sequence number and the letter are the same.
Direct writing is the one way to change the register under the same number and letter: with a shadow
configured it leaves the number as it is.
-/

namespace Zebra.Trans

variable {κ β : Type} [DecidableEq κ]

/-- Write transactions and commits of other sessions, each completed before the next begins, and a
reader; the write transactions meet a condition. -/
inductive History (cond : Mode → List (κ × β) → Disk κ β → Prop) :
    Disk κ β → Option (Reg κ β) → Prop
  | start (disk : Disk κ β) : History cond disk none
  | writeTrans {disk : Disk κ β} {reg : Option (Reg κ β)} (before : History cond disk reg)
      (mode : Mode) (blocks : List (κ × β)) (meets : cond mode blocks disk) :
      History cond (writeTrans mode blocks disk) reg
  | commit {disk : Disk κ β} {reg : Option (Reg κ β)} (before : History cond disk reg)
      (mode : Mode) : History cond (zebraCommit mode disk) reg
  | beginRead {disk : Disk κ β} {reg : Option (Reg κ β)} (before : History cond disk reg) :
      History cond disk (some (zebraBeginRead disk reg))
  | closeReg {disk : Disk κ β} {reg : Option (Reg κ β)} (before : History cond disk reg) :
      History cond disk none

/-- A session that has a shadow configured does not write past it. -/
def NotPast (mode : Mode) (blocks : List (κ × β)) (_ : Disk κ β) : Prop :=
  mode.shadow = true → mode.shadowEnable = true ∨ blocks = []

/-- The register of a reader is older than the number on disk, or what it has seen is there. -/
structure Current (disk : Disk κ β) (reg : Reg κ β) : Prop where
  seqno_le : reg.seqno ≤ disk.seqno
  seen : reg.seqno = disk.seqno → reg.lastVal = readVal disk.val →
    reg.seen = disk.view (readsShadow reg.lastVal)
  commit : disk.val = .c → reg.seqno = disk.seqno → reg.lastVal = .c

/-- A commit leaves the disk as it is or raises the number. -/
theorem zebraCommit_spec (mode : Mode) (disk : Disk κ β) :
    zebraCommit mode disk = disk ∨
      (zebraCommit mode disk).seqno = disk.seqno + 1 ∧ (zebraCommit mode disk).val = .o := by
  rw [zebraCommit]
  split
  · dsimp only
    split
    · exact .inr ⟨rfl, rfl⟩
    · exact .inl rfl
  · exact .inl rfl

/-- A commit that throws away a dirty shadow leaves the register as it is. -/
theorem register_zebraCommit {mode : Mode} {disk : Disk κ β} (dirty : disk.val = .d) :
    (zebraCommit mode disk).register = disk.register := by
  rw [zebraCommit]
  split
  · dsimp only
    split
    · rfl
    · rfl
  · rfl

theorem register_zebraBeginTrans {mode : Mode} {disk : Disk κ β} (no_commit : disk.val ≠ .c) :
    (zebraBeginTrans mode disk).register = disk.register := by
  have recovered : (if disk.val ≠ .o then zebraCommit mode disk else disk).register =
      disk.register := by
    split
    · rename_i unfinished
      refine register_zebraCommit ?_
      cases val : disk.val with
      | d => rfl
      | o => exact absurd val unfinished
      | c => exact absurd val no_commit
    · rfl
  rw [zebraBeginTrans]
  split <;> exact recovered

theorem state_zebraBeginTrans (mode : Mode) (disk : Disk κ β) :
    (zebraBeginTrans mode disk).val = .d ∧ (zebraBeginTrans mode disk).seqno = disk.seqno := by
  rw [zebraBeginTrans]
  split <;> exact ⟨rfl, rfl⟩

theorem state_writeRegister (mode : Mode) (blocks : List (κ × β)) (disk : Disk κ β) :
    (writeRegister mode blocks disk).val = disk.val ∧
      (writeRegister mode blocks disk).seqno = disk.seqno := by
  rw [writeRegister]
  split <;> exact ⟨rfl, rfl⟩

/-- Only what is written past the shadow changes the register. -/
theorem register_writeRegister {mode : Mode} {blocks : List (κ × β)} (disk : Disk κ β)
    (not_past : mode.useShadow = true ∨ blocks = []) :
    (writeRegister mode blocks disk).register = disk.register := by
  rw [writeRegister]
  split
  · rfl
  · rename_i past
    rw [not_past.resolve_left past]
    rfl

theorem writeTrans_spec (mode : Mode) (blocks : List (κ × β)) (disk : Disk κ β) :
    (writeTrans mode blocks disk).val = .o ∧
      (writeTrans mode blocks disk).seqno = (if mode.shadow then disk.seqno else disk.seqno + 1) ∧
      (writeTrans mode blocks disk).register =
        (writeRegister mode blocks (zebraBeginTrans mode disk)).register := by
  obtain ⟨begun, seqno_eq⟩ := state_zebraBeginTrans mode disk
  obtain ⟨val_eq, seqno_eq'⟩ := state_writeRegister mode blocks (zebraBeginTrans mode disk)
  rw [writeTrans, zebraEndTransaction,
    if_neg (by rw [val_eq, begun]; exact not_not.mpr rfl), seqno_eq', seqno_eq]
  exact ⟨rfl, rfl, rfl⟩

variable {disk : Disk κ β} {reg : Reg κ β}

theorem Current.writeTrans (current : Current disk reg) {mode : Mode} {blocks : List (κ × β)}
    (not_past : NotPast mode blocks disk) : Current (writeTrans mode blocks disk) reg := by
  obtain ⟨val_eq, seqno_eq, register_eq⟩ := writeTrans_spec mode blocks disk
  have seqno_le := current.seqno_le
  refine ⟨?_, fun same_seqno same_val => ?_, fun in_commit => ?_⟩
  · rw [seqno_eq]
    split <;> omega
  · rw [val_eq] at same_val
    have reads : reg.lastVal = .o := same_val
    cases shadow : mode.shadow with
    | false =>
      rw [seqno_eq, shadow] at same_seqno
      exact absurd same_seqno (by simp; omega)
    | true =>
      rw [seqno_eq, shadow, if_pos rfl] at same_seqno
      have no_commit : disk.val ≠ .c := by
        intro in_commit
        have last := current.commit in_commit same_seqno
        rw [reads] at last
        cases last
      have was_current : reg.lastVal = readVal disk.val := by
        rw [reads]
        cases val : disk.val with
        | d => rfl
        | o => rfl
        | c => exact absurd val no_commit
      have kept : (Trans.writeTrans mode blocks disk).register = disk.register := by
        rw [register_eq, register_writeRegister _ ?_, register_zebraBeginTrans no_commit]
        exact (not_past shadow).imp_left fun enabled => by rw [Mode.useShadow, shadow, enabled]; rfl
      rw [current.seen same_seqno was_current, reads]
      exact kept.symm
  · rw [val_eq] at in_commit
    cases in_commit

theorem Current.commit_step (current : Current disk reg) (mode : Mode) :
    Current (zebraCommit mode disk) reg := by
  rcases zebraCommit_spec mode disk with same | ⟨seqno_eq, val_eq⟩
  · rw [same]
    exact current
  · have seqno_le := current.seqno_le
    refine ⟨by omega, fun same_seqno => ?_, fun in_commit => ?_⟩
    · omega
    · rw [val_eq] at in_commit
      cases in_commit

theorem current_beginRead {reg : Option (Reg κ β)} (current : ∀ r ∈ reg, Current disk r) :
    Current disk (zebraBeginRead disk reg) := by
  have opened : Current disk
      { lastVal := readVal disk.val
        seqno := disk.seqno
        seen := disk.view (readsShadow (readVal disk.val)) } := by
    refine ⟨Nat.le_refl _, fun _ _ => rfl, fun in_commit _ => ?_⟩
    dsimp only
    rw [in_commit]
    rfl
  cases reg with
  | none => exact opened
  | some r =>
    rw [zebraBeginRead, Option.elim_some]
    split
    · exact current r rfl
    · exact opened

theorem History.current {reg : Option (Reg κ β)} (history : History NotPast disk reg) :
    ∀ r ∈ reg, Current disk r := by
  induction history with
  | start disk => exact fun r mem => absurd mem (by simp)
  | writeTrans before mode blocks not_past induction =>
    exact fun r mem => (induction r mem).writeTrans not_past
  | commit before mode induction => exact fun r mem => (induction r mem).commit_step mode
  | beginRead before induction =>
    intro r mem
    rw [← Option.some.inj mem]
    exact current_beginRead induction
  | closeReg before induction => exact fun r mem => absurd mem (by simp)

/-- As long as no session writes past a shadow it has configured, a reader that keeps its register
has seen what is in the files it reads. -/
theorem kept_register_current {reg : Option (Reg κ β)} (history : History NotPast disk reg) :
    ∀ r ∈ reg, keepsReg disk r = true → r.seen = disk.view (readsShadow r.lastVal) := by
  intro r mem keeps
  obtain ⟨same_seqno, same_val⟩ := of_decide_eq_true keeps
  exact (history.current r mem).seen same_seqno.symm same_val

/-- A reader keeps its register while another session writes to a shadow. -/
theorem kept_register_current_shadow :
    (zebraBeginRead (⟨.o, 3, fun _ => 0, none⟩ : Disk Nat Nat) none).seen =
      (writeTrans ⟨true, true⟩ [(0, 1)] (⟨.o, 3, fun _ => 0, none⟩ : Disk Nat Nat)).view false :=
  kept_register_current
    (.writeTrans (.beginRead (.start _)) ⟨true, true⟩ [(0, 1)] fun _ => .inl rfl) _ rfl (by decide)

/-- A reader keeps its register although a block has been written past the shadow. -/
theorem kept_register_stale :
    ¬∀ (disk : Disk Nat Nat) (reg : Option (Reg Nat Nat)),
      History (fun _ _ _ => True) disk reg →
        ∀ r ∈ reg, keepsReg disk r = true → r.seen = disk.view (readsShadow r.lastVal) := by
  intro claim
  have seen := claim _ _ (.writeTrans (.beginRead (.start ⟨.o, 3, fun _ => 0, none⟩)) ⟨true, false⟩
    [(0, 1)] trivial) _ rfl (by decide)
  exact absurd (congrFun seen 0) (by decide)

end Zebra.Trans
