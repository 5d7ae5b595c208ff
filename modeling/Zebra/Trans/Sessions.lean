import Zebra.Trans.Crash

/-!
# Sessions side by side

Sessions run write transactions and commits on one register with shadow files, with `lock_normal`
and `lock_shadow` between them.  A commit gives its locks back when it has set the state and takes
`lock_shadow` again to remove the shadow.
-/

namespace Zebra.Trans

open Function List
open Bool (eq_false_iff or_eq_false_iff)

variable {κ β σ : Type} [DecidableEq κ] [DecidableEq σ]

/-- Where a session is; `resume` has the sequence number with which a begin goes on after its
commit. -/
inductive Pc (κ β : Type) where
  /-- without a lock -/
  | outside (resume : Option Nat)
  /-- in a begin, with `lock_normal` for reading -/
  | beginNormal (resume : Option Nat)
  /-- in a begin that has to commit first, without a lock -/
  | mustCommit (seqno : Nat)
  /-- in a write transaction, with `lock_shadow` for writing as well -/
  | trans (seqno : Nat) (writes : Writes κ β)
  /-- in a commit, with `lock_normal` for writing -/
  | commitNormal (resume : Option Nat)
  /-- in a commit, with `lock_shadow` for reading as well, and with blocks to copy -/
  | committing (seqno : Nat) (copies : List (κ × β)) (cleanOnly : Bool) (resume : Option Nat)
  /-- in a commit that is done but for the shadow, without a lock -/
  | window (resume : Option Nat)

/-- Whether a session has `lock_normal` for reading. -/
def Pc.readsNormal : Pc κ β → Bool
  | .beginNormal _ => true
  | .trans _ _ => true
  | _ => false

/-- Whether a session has `lock_normal` for writing. -/
def Pc.writesNormal : Pc κ β → Bool
  | .commitNormal _ => true
  | .committing _ _ _ _ => true
  | _ => false

/-- Whether a session has `lock_shadow` for reading. -/
def Pc.readsShadow : Pc κ β → Bool
  | .committing _ _ _ _ => true
  | _ => false

/-- Whether a session has `lock_shadow` for writing. -/
def Pc.writesShadow : Pc κ β → Bool
  | .trans _ _ => true
  | _ => false

/-- Whether a session is between the end of its commit and `bf_commitClean`. -/
def Pc.inWindow : Pc κ β → Bool
  | .window _ => true
  | _ => false

/-- The files, the sessions and the transactions that have been completed. -/
structure Sessions (κ β σ : Type) where
  disk : Disk κ β
  pc : σ → Pc κ β
  completed : List (Writes κ β)

def Sessions.move (sessions : Sessions κ β σ) (s : σ) (pc : Pc κ β) (disk : Disk κ β) :
    Sessions κ β σ :=
  { sessions with pc := Function.update sessions.pc s pc, disk }

def Sessions.Free (sessions : Sessions κ β σ) (s : σ) (holds : Pc κ β → Bool) : Prop :=
  ∀ t, t ≠ s → holds (sessions.pc t) = false

/-- The operations of a session. -/
inductive Action where
  | lockBegin
  | begin
  | recover
  | beginFails
  | write
  | finish
  | lockCommit
  | startCommit
  | copy
  | settle
  | clean
  deriving DecidableEq

/-- An operation of a session that gets the locks it waits for. -/
inductive Moves (s : σ) (sessions : Sessions κ β σ) : Action → Sessions κ β σ → Prop
  /-- `zebra_lock_r(zh->lock_normal)` in `zebra_begin_trans` -/
  | lockBegin (resume : Option Nat) (here : sessions.pc s = .outside resume)
      (free : sessions.Free s Pc.writesNormal) :
      Moves s sessions .lockBegin (sessions.move s (.beginNormal resume) sessions.disk)
  /-- The state is `o`, or a commit has been made; the register is opened. -/
  | begin (resume : Option Nat) (here : sessions.pc s = .beginNormal resume)
      (free : sessions.Free s fun pc => pc.readsShadow || pc.writesShadow)
      (ready : sessions.disk.val = .o ∨ resume.isSome = true) :
      Moves s sessions .begin (sessions.move s (.trans (resume.getD sessions.disk.seqno) [])
        { sessions.disk with
          val := .d
          seqno := resume.getD sessions.disk.seqno
          shadow := some (sessions.disk.shadow.getD []) })
  /-- The state is not `o`; both locks are given back for `zebra_commit`. -/
  | recover (here : sessions.pc s = .beginNormal none)
      (free : sessions.Free s fun pc => pc.readsShadow || pc.writesShadow)
      (dirty : sessions.disk.val ≠ .o) :
      Moves s sessions .recover (sessions.move s (.mustCommit sessions.disk.seqno) sessions.disk)
  | beginFails (seqno : Nat) (here : sessions.pc s = .trans seqno []) :
      Moves s sessions .beginFails (sessions.move s (.outside none) sessions.disk)
  | write (seqno : Nat) (writes : Writes κ β) (block : κ × β)
      (here : sessions.pc s = .trans seqno writes) :
      Moves s sessions .write (sessions.move s (.trans seqno (writes ++ [block]))
        { sessions.disk with shadow := some (sessions.disk.shadow.getD [] ++ [block]) })
  /-- `zebra_end_transaction` -/
  | finish (seqno : Nat) (writes : Writes κ β) (here : sessions.pc s = .trans seqno writes) :
      Moves s sessions .finish
        { sessions.move s (.outside none)
            (zebraSetState
              (if sessions.disk.val ≠ .d then bfCommitClean sessions.disk else sessions.disk)
              .o sessions.disk.seqno) with
          completed := sessions.completed ++ [writes] }
  /-- `zebra_lock_w(zh->lock_normal)` in `zebra_commit_ex` -/
  | lockCommit (resume : Option Nat)
      (here : sessions.pc s = resume.elim (.outside none) Pc.mustCommit)
      (free : sessions.Free s fun pc => pc.readsNormal || pc.writesNormal) :
      Moves s sessions .lockCommit (sessions.move s (.commitNormal resume) sessions.disk)
  /-- `zebra_commit_ex` up to the first block. -/
  | startCommit (resume : Option Nat) (here : sessions.pc s = .commitNormal resume)
      (free : sessions.Free s Pc.writesShadow) :
      Moves s sessions .startCommit
        (sessions.disk.shadow.elim (sessions.move s (.outside resume) sessions.disk) fun blocks =>
          if cleans false sessions.disk.val then
            sessions.move s (.committing sessions.disk.seqno [] true resume)
              (zebraSetState sessions.disk .d sessions.disk.seqno)
          else
            sessions.move s
              (.committing sessions.disk.seqno (shadowBlocks blocks) false resume)
              (zebraSetState sessions.disk .c sessions.disk.seqno))
  | copy (seqno : Nat) (block : κ × β) (copies : List (κ × β)) (cleanOnly : Bool)
      (resume : Option Nat)
      (here : sessions.pc s = .committing seqno (block :: copies) cleanOnly resume) :
      Moves s sessions .copy (sessions.move s (.committing seqno copies cleanOnly resume)
        { sessions.disk with register := writeBlocks sessions.disk.register [block] })
  | settle (seqno : Nat) (cleanOnly : Bool) (resume : Option Nat)
      (here : sessions.pc s = .committing seqno [] cleanOnly resume) :
      Moves s sessions .settle (sessions.move s (.window resume)
        (zebraSetState sessions.disk .o (seqno + 1)))
  | clean (resume : Option Nat) (here : sessions.pc s = .window resume)
      (free : sessions.Free s fun pc => pc.readsShadow || pc.writesShadow) :
      Moves s sessions .clean
        (sessions.move s (.outside resume) (bfCommitClean sessions.disk))

def startSessions (register : κ → β) : Sessions κ β σ where
  disk := { val := .o, seqno := 0, register, shadow := none }
  pc _ := .outside none
  completed := []

/-- What sessions come to by operations that meet a condition. -/
inductive Reached (allowed : Sessions κ β σ → Action → Prop) (register : κ → β) :
    Sessions κ β σ → Prop
  | start : Reached allowed register (startSessions register)
  | step {sessions next : Sessions κ β σ} {s : σ} {action : Action}
      (reached : Reached allowed register sessions) (moves : Moves s sessions action next)
      (meets : allowed sessions action) : Reached allowed register next

/-- No begin fails, and no write transaction begins between the end of a commit and its
`bf_commitClean`. -/
def Undisturbed (sessions : Sessions κ β σ) (action : Action) : Prop :=
  action ≠ .beginFails ∧ (action = .begin → ∀ t, (sessions.pc t).inWindow = false)

def Sessions.view (sessions : Sessions κ β σ) : κ → β :=
  writeBlocks sessions.disk.register (sessions.disk.shadow.getD [])

/-- The completed transactions are in what a write transaction sees, and in the register when a
commit is done. -/
structure Kept (register : κ → β) (sessions : Sessions κ β σ) : Prop where
  seen : ∀ s seqno writes, sessions.pc s = .trans seqno writes →
    sessions.view = writeBlocks register (sessions.completed.flatten ++ writes)
  between : (∀ s, (sessions.pc s).writesShadow = false) →
    sessions.view = writeBlocks register sessions.completed.flatten
  committed : ∀ s, (sessions.pc s).inWindow = true →
    sessions.disk.register = writeBlocks register sessions.completed.flatten

section

theorem writeBlocks_self (files : κ → β) (blocks : List (κ × β)) (i : κ) :
    writeBlocks (Function.update files i (writeBlocks files blocks i)) blocks =
      writeBlocks files blocks := by
  by_cases written : i ∈ blocks.map Prod.fst
  · refine writeBlocks_congr fun j absent => update_of_ne ?_ _ _
    rintro rfl
    exact absent written
  · rw [writeBlocks_of_notMem files written, update_eq_self]

theorem writeBlocks_of_mem (files : κ → β) {blocks : List (κ × β)} {block : κ × β}
    (mem : block ∈ shadowBlocks blocks) : writeBlocks files blocks block.1 = block.2 := by
  induction blocks generalizing files with
  | nil => cases mem
  | cons first blocks induction =>
    rw [shadowBlocks] at mem
    split at mem
    · exact induction _ mem
    next last =>
      obtain rfl | mem := mem_cons.mp mem
      · exact (writeBlocks_of_notMem _ last).trans (update_self _ _ _)
      · exact induction _ mem

end

/-- What is so of the files whenever no session is in a write transaction or copies blocks. -/
structure Consistent (register : κ → β) (sessions : Sessions κ β σ) : Prop where
  kept : Kept register sessions
  /-- A write transaction makes the state dirty and has the shadow for itself. -/
  trans : ∀ s, (sessions.pc s).writesShadow = true → sessions.disk.val = .d ∧
    sessions.disk.shadow.isSome = true ∧ (∀ t, (sessions.pc t).inWindow = false) ∧
      sessions.Free s fun pc => pc.writesShadow || pc.writesNormal
  committing : ∀ s seqno copies cleanOnly resume,
    sessions.pc s = .committing seqno copies cleanOnly resume →
      cleanOnly = false ∧ sessions.disk.val = .c ∧
        writeBlocks sessions.disk.register copies =
          writeBlocks register sessions.completed.flatten ∧
        (∀ block ∈ copies,
          writeBlocks register sessions.completed.flatten block.1 = block.2) ∧
        sessions.Free s fun pc => pc.readsNormal || pc.writesNormal
  /-- A commit that has `lock_normal` has it alone. -/
  waiting : ∀ s, (sessions.pc s).writesNormal = true →
    sessions.Free s fun pc => pc.readsNormal || pc.writesNormal
  idle : (∀ s, (sessions.pc s).writesShadow = false) →
    (∀ s, (sessions.pc s).readsShadow = false) → sessions.disk.val = .o

section

variable {register : κ → β} {sessions : Sessions κ β σ} {s : σ}

omit [DecidableEq κ] in
theorem pc_self (pc : Pc κ β) (disk : Disk κ β) : (sessions.move s pc disk).pc s = pc :=
  update_self _ _ _

omit [DecidableEq κ] in
theorem pc_ne {t : σ} (ne : t ≠ s) (pc : Pc κ β) (disk : Disk κ β) :
    (sessions.move s pc disk).pc t = sessions.pc t := update_of_ne ne _ _

omit [DecidableEq κ] in
theorem none_move (holds : Pc κ β → Bool) {pc : Pc κ β} {disk : Disk κ β}
    (self : holds pc = false) (others : ∀ t, t ≠ s → holds (sessions.pc t) = false) (t : σ) :
    holds ((sessions.move s pc disk).pc t) = false := by
  by_cases same : t = s
  · subst same
    rw [pc_self]
    exact self
  · rw [pc_ne same]
    exact others t same

omit [DecidableEq κ] in
theorem free_move {holds : Pc κ β → Bool} {pc : Pc κ β} {disk : Disk κ β} {t : σ}
    (free : sessions.Free t holds) (self : t ≠ s → holds pc = false) :
    (sessions.move s pc disk).Free t holds := by
  intro u ne
  by_cases same : u = s
  · subst same
    rw [pc_self]
    exact self (Ne.symm ne)
  · rw [pc_ne same]
    exact free u ne

omit [DecidableEq κ] [DecidableEq σ] in
theorem writesShadow_of_trans {pc : Pc κ β} {seqno : Nat} {writes : Writes κ β}
    (eq : pc = .trans seqno writes) : pc.writesShadow = true := by
  rw [eq]
  rfl

/-- A session goes on that has not copied and does not write, on the same files. -/
theorem Consistent.relabel (consistent : Consistent register sessions) {pc : Pc κ β}
    (not_writes : (sessions.pc s).writesShadow = false)
    (not_reads : (sessions.pc s).readsShadow = false) (writes' : pc.writesShadow = false)
    (reads' : pc.readsShadow = false)
    (in_window : pc.inWindow = true → (sessions.pc s).inWindow = true)
    (normal : (pc.readsNormal || pc.writesNormal) = true → sessions.Free s Pc.writesNormal)
    (alone : pc.writesNormal = true →
      sessions.Free s fun pc => pc.readsNormal || pc.writesNormal) :
    Consistent register (sessions.move s pc sessions.disk) := by
  have writes_before : (∀ t, ((sessions.move s pc sessions.disk).pc t).writesShadow = false) →
      ∀ t, (sessions.pc t).writesShadow = false := by
    intro none t
    by_cases same : t = s
    · exact same ▸ not_writes
    · exact pc_ne same pc sessions.disk ▸ none t
  have reads_before : (∀ t, ((sessions.move s pc sessions.disk).pc t).readsShadow = false) →
      ∀ t, (sessions.pc t).readsShadow = false := by
    intro none t
    by_cases same : t = s
    · exact same ▸ not_reads
    · exact pc_ne same pc sessions.disk ▸ none t
  have writes_ne : ∀ t, ((sessions.move s pc sessions.disk).pc t).writesShadow = true →
      t ≠ s ∧ (sessions.pc t).writesShadow = true := by
    intro t holds
    by_cases same : t = s
    · rw [same, pc_self, writes'] at holds
      cases holds
    · exact ⟨same, pc_ne same pc sessions.disk ▸ holds⟩
  refine ⟨⟨?_, fun none => consistent.kept.between (writes_before none), ?_⟩, ?_, ?_, ?_,
    fun none none' => consistent.idle (writes_before none) (reads_before none')⟩
  · intro t seqno writes here
    obtain ⟨ne, -⟩ := writes_ne t (writesShadow_of_trans here)
    exact consistent.kept.seen t seqno writes (pc_ne ne pc sessions.disk ▸ here)
  · intro t holds
    by_cases same : t = s
    · rw [same, pc_self] at holds
      exact consistent.kept.committed s (in_window holds)
    · exact consistent.kept.committed t (pc_ne same pc sessions.disk ▸ holds)
  · intro t holds
    obtain ⟨ne, before⟩ := writes_ne t holds
    obtain ⟨val, shadow, no_window, free⟩ := consistent.trans t before
    refine ⟨val, shadow, none_move _ ?_ fun u _ => no_window u, free_move free fun _ => ?_⟩
    · exact eq_false_iff.mpr fun holds =>
        Bool.noConfusion ((no_window s).symm.trans (in_window holds))
    · rw [writes', Bool.false_or]
      refine eq_false_iff.mpr fun holds => ?_
      have reads_t : (sessions.pc t).readsNormal = true := by
        cases pc_t : sessions.pc t <;> rw [pc_t] at before <;> first | rfl | cases before
      have other := (or_eq_false_iff.mp (alone holds t ne)).1
      rw [reads_t] at other
      cases other
  · intro t seqno copies cleanOnly resume here
    have ne : t ≠ s := by
      rintro rfl
      rw [pc_self] at here
      rw [here] at reads'
      cases reads'
    rw [pc_ne ne] at here
    obtain ⟨cleaned, val, copied, shown, free⟩ := consistent.committing t _ _ _ _ here
    refine ⟨cleaned, val, copied, shown, free_move free fun _ => ?_⟩
    refine eq_false_iff.mpr fun holds => ?_
    have other := normal holds t ne
    rw [here] at other
    cases other
  · intro t holds
    by_cases same : t = s
    · subst same
      rw [pc_self] at holds
      exact free_move (alone holds) fun ne => absurd rfl ne
    · rw [pc_ne same] at holds
      refine free_move (consistent.waiting t holds) fun _ => ?_
      refine eq_false_iff.mpr fun held => ?_
      have other := normal held t same
      rw [holds] at other
      cases other

omit [DecidableEq σ] in
/-- `lock_normal` is taken for writing by one session alone. -/
theorem Consistent.not_normal (consistent : Consistent register sessions) {t : σ} (ne : t ≠ s)
    (holds : (sessions.pc s).writesNormal = true) :
    (sessions.pc t).readsNormal = false ∧ (sessions.pc t).writesNormal = false :=
  or_eq_false_iff.mp (consistent.waiting s holds t ne)

omit [DecidableEq κ] [DecidableEq σ] in
theorem writesNormal_of_readsShadow {pc : Pc κ β} (holds : pc.readsShadow = true) :
    pc.writesNormal = true := by
  cases pc <;> first | rfl | cases holds

omit [DecidableEq κ] [DecidableEq σ] in
theorem readsNormal_of_writesShadow {pc : Pc κ β} (holds : pc.writesShadow = true) :
    pc.readsNormal = true := by
  cases pc <;> first | rfl | cases holds

omit [DecidableEq σ] in
/-- While a session has `lock_normal` for writing no other is in a write transaction. -/
theorem Consistent.no_trans (consistent : Consistent register sessions)
    (holds : (sessions.pc s).writesNormal = true) : ∀ t, (sessions.pc t).writesShadow = false := by
  intro t
  refine eq_false_iff.mpr fun writes => ?_
  have reads := readsNormal_of_writesShadow writes
  by_cases same : t = s
  · subst same
    cases pc : sessions.pc t <;> rw [pc] at holds reads <;>
      first | exact Bool.noConfusion holds | exact Bool.noConfusion reads
  · rw [(consistent.not_normal same holds).1] at reads
    cases reads

omit [DecidableEq σ] in
theorem Consistent.no_commit (consistent : Consistent register sessions)
    (holds : (sessions.pc s).writesNormal = true) {t : σ} (ne : t ≠ s) :
    (sessions.pc t).writesNormal = false ∧ (sessions.pc t).readsShadow = false := by
  refine ⟨(consistent.not_normal ne holds).2, eq_false_iff.mpr fun reads => ?_⟩
  have writes := writesNormal_of_readsShadow reads
  rw [(consistent.not_normal ne holds).2] at writes
  cases writes

variable {resume : Option Nat}

theorem Consistent.begin (consistent : Consistent register sessions)
    (here : sessions.pc s = .beginNormal resume)
    (free : sessions.Free s fun pc => pc.readsShadow || pc.writesShadow)
    (no_window : ∀ t, (sessions.pc t).inWindow = false) :
    Consistent register (sessions.move s (.trans (resume.getD sessions.disk.seqno) [])
      { sessions.disk with
        val := .d
        seqno := resume.getD sessions.disk.seqno
        shadow := some (sessions.disk.shadow.getD []) }) := by
  have no_writer : ∀ t, (sessions.pc t).writesNormal = false := by
    intro t
    refine eq_false_iff.mpr fun writes => ?_
    by_cases same : t = s
    · rw [same, here] at writes
      cases writes
    · have other := (consistent.not_normal (Ne.symm same) writes).1
      rw [here] at other
      cases other
  have no_trans : ∀ t, (sessions.pc t).writesShadow = false := by
    intro t
    by_cases same : t = s
    · rw [same, here]
      rfl
    · exact (or_eq_false_iff.mp (free t same)).2
  have view := consistent.kept.between no_trans
  refine ⟨⟨?_, fun none => ?_, ?_⟩, ?_, ?_, ?_, fun none => ?_⟩
  · intro t seqno writes pc
    by_cases same : t = s
    · rw [same, pc_self] at pc
      obtain ⟨-, rfl⟩ := Pc.trans.inj pc
      rw [append_nil]
      exact view
    · rw [pc_ne same] at pc
      have writes := writesShadow_of_trans pc
      rw [no_trans t] at writes
      cases writes
  · have self := none s
    rw [pc_self] at self
    cases self
  · intro t holds
    rw [none_move Pc.inWindow rfl fun u _ => no_window u] at holds
    cases holds
  · intro t holds
    by_cases same : t = s
    · subst same
      refine ⟨rfl, rfl, none_move _ rfl fun u _ => no_window u, ?_⟩
      refine free_move (fun u _ => ?_) fun ne => absurd rfl ne
      rw [no_trans u, no_writer u]
      rfl
    · rw [pc_ne same, no_trans t] at holds
      cases holds
  · intro t seqno copies cleanOnly resume pc
    by_cases same : t = s
    · rw [same, pc_self] at pc
      cases pc
    · rw [pc_ne same] at pc
      have writes := no_writer t
      rw [pc] at writes
      cases writes
  · intro t holds
    rw [none_move Pc.writesNormal rfl fun u _ => no_writer u] at holds
    cases holds
  · have self := none s
    rw [pc_self] at self
    cases self

theorem Consistent.write (consistent : Consistent register sessions) {seqno : Nat}
    {writes : Writes κ β} (block : κ × β) (here : sessions.pc s = .trans seqno writes) :
    Consistent register (sessions.move s (.trans seqno (writes ++ [block]))
      { sessions.disk with shadow := some (sessions.disk.shadow.getD [] ++ [block]) }) := by
  obtain ⟨val, shadow, no_window, free⟩ := consistent.trans s (writesShadow_of_trans here)
  have view : (sessions.move s (.trans seqno (writes ++ [block]))
      { sessions.disk with shadow := some (sessions.disk.shadow.getD [] ++ [block]) }).view =
      writeBlocks register (sessions.completed.flatten ++ (writes ++ [block])) := by
    have before := consistent.kept.seen s seqno writes here
    rw [← append_assoc, writeBlocks_append register, ← before]
    exact writeBlocks_append _ _ _
  have others : ∀ t, t ≠ s → (sessions.pc t).writesShadow = false ∧
      (sessions.pc t).writesNormal = false :=
    fun t ne => or_eq_false_iff.mp (free t ne)
  refine ⟨⟨?_, fun none => ?_, ?_⟩, ?_, ?_, ?_, fun none => ?_⟩
  · intro t seqno' writes' pc
    by_cases same : t = s
    · rw [same, pc_self] at pc
      obtain ⟨-, rfl⟩ := Pc.trans.inj pc
      exact view
    · rw [pc_ne same] at pc
      have holds := writesShadow_of_trans pc
      rw [(others t same).1] at holds
      cases holds
  · have self := none s
    rw [pc_self] at self
    cases self
  · intro t holds
    rw [none_move Pc.inWindow rfl fun u _ => no_window u] at holds
    cases holds
  · intro t holds
    by_cases same : t = s
    · subst same
      exact ⟨val, rfl, none_move _ rfl fun u _ => no_window u,
        free_move free fun ne => absurd rfl ne⟩
    · rw [pc_ne same, (others t same).1] at holds
      cases holds
  · intro t seqno' copies cleanOnly resume pc
    by_cases same : t = s
    · rw [same, pc_self] at pc
      cases pc
    · rw [pc_ne same] at pc
      have holds := (others t same).2
      rw [pc] at holds
      cases holds
  · intro t holds
    rw [none_move Pc.writesNormal rfl fun u ne => (others u ne).2] at holds
    cases holds
  · have self := none s
    rw [pc_self] at self
    cases self

theorem Consistent.finish (consistent : Consistent register sessions) {seqno : Nat}
    {writes : Writes κ β} (here : sessions.pc s = .trans seqno writes) :
    Consistent register
      { sessions.move s (.outside none)
          (zebraSetState
            (if sessions.disk.val ≠ .d then bfCommitClean sessions.disk else sessions.disk)
            .o sessions.disk.seqno) with
        completed := sessions.completed ++ [writes] } := by
  obtain ⟨val, shadow, no_window, free⟩ := consistent.trans s (writesShadow_of_trans here)
  have view := consistent.kept.seen s seqno writes here
  rw [if_neg (not_not.mpr val)]
  have others : ∀ t, t ≠ s → (sessions.pc t).writesShadow = false ∧
      (sessions.pc t).writesNormal = false :=
    fun t ne => or_eq_false_iff.mp (free t ne)
  have no_trans : ∀ t, ((sessions.move s (.outside none)
      (zebraSetState sessions.disk .o sessions.disk.seqno)).pc t).writesShadow = false :=
    none_move _ rfl fun u ne => (others u ne).1
  have no_writer : ∀ t, ((sessions.move s (.outside none)
      (zebraSetState sessions.disk .o sessions.disk.seqno)).pc t).writesNormal = false :=
    none_move _ rfl fun u ne => (others u ne).2
  refine ⟨⟨?_, fun _ => ?_, ?_⟩, ?_, ?_, ?_, fun _ _ => rfl⟩
  · intro t seqno' writes' pc
    have holds := no_trans t
    rw [show ((sessions.move s (.outside none)
      (zebraSetState sessions.disk .o sessions.disk.seqno)).pc t) = _ from pc] at holds
    cases holds
  · rw [flatten_append, flatten_singleton]
    exact view
  · intro t holds
    have none : ((sessions.move s (.outside none)
      (zebraSetState sessions.disk .o sessions.disk.seqno)).pc t).inWindow = false :=
      none_move _ rfl (fun u _ => no_window u) t
    exact absurd (none.symm.trans holds) Bool.noConfusion
  · exact fun t holds => absurd ((no_trans t).symm.trans holds) Bool.noConfusion
  · intro t seqno' copies cleanOnly resume pc
    have holds := no_writer t
    rw [show ((sessions.move s (.outside none)
      (zebraSetState sessions.disk .o sessions.disk.seqno)).pc t) = _ from pc] at holds
    cases holds
  · exact fun t holds => absurd ((no_writer t).symm.trans holds) Bool.noConfusion

theorem Consistent.startCommit (consistent : Consistent register sessions)
    {blocks : List (κ × β)} (here : sessions.pc s = .commitNormal resume)
    (shadow : sessions.disk.shadow = some blocks) :
    cleans false sessions.disk.val = false ∧
      Consistent register (sessions.move s
        (.committing sessions.disk.seqno (shadowBlocks blocks) false resume)
        (zebraSetState sessions.disk .c sessions.disk.seqno)) := by
  have writes : (sessions.pc s).writesNormal = true := here ▸ rfl
  have no_trans := consistent.no_trans writes
  have no_reads : ∀ t, (sessions.pc t).readsShadow = false := by
    intro t
    by_cases same : t = s
    · rw [same, here]
      rfl
    · exact (consistent.no_commit writes same).2
  have val := consistent.idle no_trans no_reads
  have view := consistent.kept.between no_trans
  rw [Sessions.view, shadow] at view
  have no_trans' : ∀ t, ((sessions.move s
      (.committing sessions.disk.seqno (shadowBlocks blocks) false resume)
      (zebraSetState sessions.disk .c sessions.disk.seqno)).pc t).writesShadow = false :=
    none_move _ rfl fun t _ => no_trans t
  refine ⟨by rw [val]; rfl, ⟨?_, fun _ => ?_, ?_⟩, ?_, ?_, ?_, fun _ none => ?_⟩
  · intro t seqno' writes' pc
    exact absurd ((no_trans' t).symm.trans (writesShadow_of_trans pc)) Bool.noConfusion
  · change writeBlocks sessions.disk.register (sessions.disk.shadow.getD []) = _
    rw [shadow]
    exact view
  · intro t holds
    by_cases same : t = s
    · rw [same, pc_self] at holds
      cases holds
    · rw [pc_ne same] at holds
      exact consistent.kept.committed t holds
  · exact fun t holds => absurd ((no_trans' t).symm.trans holds) Bool.noConfusion
  · intro t seqno' copies cleanOnly resume' pc
    by_cases same : t = s
    · subst same
      rw [pc_self] at pc
      obtain ⟨-, rfl, rfl, -⟩ := Pc.committing.inj pc
      refine ⟨rfl, rfl, ?_, fun block mem => ?_, ?_⟩
      · exact (writeBlocks_shadowBlocks _ _).trans view
      · exact (congrFun view.symm block.1).trans (writeBlocks_of_mem _ mem)
      · exact free_move (consistent.waiting t writes) fun ne => absurd rfl ne
    · rw [pc_ne same] at pc
      have reads := (consistent.no_commit writes same).2
      rw [pc] at reads
      cases reads
  · intro t holds
    by_cases same : t = s
    · subst same
      exact free_move (consistent.waiting t writes) fun ne => absurd rfl ne
    · rw [pc_ne same, (consistent.no_commit writes same).1] at holds
      cases holds
  · have self := none s
    rw [pc_self] at self
    cases self

theorem Consistent.copy (consistent : Consistent register sessions) {seqno : Nat}
    {block : κ × β} {copies : List (κ × β)} {cleanOnly : Bool}
    (here : sessions.pc s = .committing seqno (block :: copies) cleanOnly resume) :
    Consistent register (sessions.move s (.committing seqno copies cleanOnly resume)
      { sessions.disk with register := writeBlocks sessions.disk.register [block] }) := by
  have writes : (sessions.pc s).writesNormal = true := here ▸ rfl
  have no_trans := consistent.no_trans writes
  obtain ⟨cleaned, val, copied, shown, free⟩ := consistent.committing s _ _ _ _ here
  have shown_block := shown block mem_cons_self
  have no_trans' : ∀ t, ((sessions.move s (.committing seqno copies cleanOnly resume)
      { sessions.disk with
        register := writeBlocks sessions.disk.register [block] }).pc t).writesShadow = false :=
    none_move _ rfl fun t _ => no_trans t
  refine ⟨⟨?_, fun _ => ?_, ?_⟩, ?_, ?_, ?_, fun _ none => ?_⟩
  · intro t seqno' writes' pc
    exact absurd ((no_trans' t).symm.trans (writesShadow_of_trans pc)) Bool.noConfusion
  · have view := consistent.kept.between no_trans
    have same := writeBlocks_self sessions.disk.register (sessions.disk.shadow.getD []) block.1
    rw [show writeBlocks sessions.disk.register (sessions.disk.shadow.getD []) = _ from view,
      shown_block] at same
    exact same
  · intro t holds
    by_cases same : t = s
    · rw [same, pc_self] at holds
      cases holds
    · rw [pc_ne same] at holds
      have register_eq := consistent.kept.committed t holds
      change Function.update sessions.disk.register block.1 block.2 = _
      rw [← shown_block, ← register_eq, update_eq_self]
      exact register_eq
  · exact fun t holds => absurd ((no_trans' t).symm.trans holds) Bool.noConfusion
  · intro t seqno' copies' cleanOnly' resume' pc
    by_cases same : t = s
    · subst same
      rw [pc_self] at pc
      obtain ⟨-, rfl, rfl, -⟩ := Pc.committing.inj pc
      exact ⟨cleaned, val, copied, fun one mem => shown one (mem_cons_of_mem _ mem),
        free_move free fun ne => absurd rfl ne⟩
    · rw [pc_ne same] at pc
      have reads := (consistent.no_commit writes same).2
      rw [pc] at reads
      cases reads
  · intro t holds
    by_cases same : t = s
    · subst same
      exact free_move (consistent.waiting t writes) fun ne => absurd rfl ne
    · rw [pc_ne same, (consistent.no_commit writes same).1] at holds
      cases holds
  · have self := none s
    rw [pc_self] at self
    cases self

theorem Consistent.settle (consistent : Consistent register sessions) {seqno : Nat}
    {cleanOnly : Bool} (here : sessions.pc s = .committing seqno [] cleanOnly resume) :
    Consistent register (sessions.move s (.window resume)
      (zebraSetState sessions.disk .o (seqno + 1))) := by
  have writes : (sessions.pc s).writesNormal = true := here ▸ rfl
  have no_trans := consistent.no_trans writes
  obtain ⟨-, -, copied, -, -⟩ := consistent.committing s _ _ _ _ here
  have no_trans' : ∀ t, ((sessions.move s (.window resume)
      (zebraSetState sessions.disk .o (seqno + 1))).pc t).writesShadow = false :=
    none_move _ rfl fun t _ => no_trans t
  have no_writer : ∀ t, ((sessions.move s (.window resume)
      (zebraSetState sessions.disk .o (seqno + 1))).pc t).writesNormal = false :=
    none_move _ rfl fun t ne => (consistent.no_commit writes ne).1
  refine ⟨⟨?_, fun _ => consistent.kept.between no_trans, ?_⟩, ?_, ?_, ?_, fun _ _ => rfl⟩
  · intro t seqno' writes' pc
    exact absurd ((no_trans' t).symm.trans (writesShadow_of_trans pc)) Bool.noConfusion
  · exact fun _ _ => copied
  · exact fun t holds => absurd ((no_trans' t).symm.trans holds) Bool.noConfusion
  · intro t seqno' copies' cleanOnly' resume' pc
    have holds := no_writer t
    rw [pc] at holds
    cases holds
  · exact fun t holds => absurd ((no_writer t).symm.trans holds) Bool.noConfusion

theorem Consistent.clean (consistent : Consistent register sessions)
    (here : sessions.pc s = .window resume)
    (free : sessions.Free s fun pc => pc.readsShadow || pc.writesShadow) :
    Consistent register (sessions.move s (.outside resume) (bfCommitClean sessions.disk)) := by
  have none : ∀ t, (sessions.pc t).readsShadow = false ∧ (sessions.pc t).writesShadow = false := by
    intro t
    by_cases same : t = s
    · rw [same, here]
      exact ⟨rfl, rfl⟩
    · exact or_eq_false_iff.mp (free t same)
  have register_eq := consistent.kept.committed s (here ▸ rfl)
  have no_trans' : ∀ t, ((sessions.move s (.outside resume)
      (bfCommitClean sessions.disk)).pc t).writesShadow = false :=
    none_move _ rfl fun t _ => (none t).2
  have no_reads' : ∀ t, ((sessions.move s (.outside resume)
      (bfCommitClean sessions.disk)).pc t).readsShadow = false :=
    none_move _ rfl fun t _ => (none t).1
  refine ⟨⟨?_, fun _ => register_eq, fun _ _ => register_eq⟩, ?_, ?_, ?_, fun _ _ =>
    consistent.idle (fun t => (none t).2) fun t => (none t).1⟩
  · intro t seqno' writes' pc
    exact absurd ((no_trans' t).symm.trans (writesShadow_of_trans pc)) Bool.noConfusion
  · exact fun t holds => absurd ((no_trans' t).symm.trans holds) Bool.noConfusion
  · intro t seqno' copies' cleanOnly' resume' pc
    have holds := no_reads' t
    rw [pc] at holds
    cases holds
  · intro t holds
    by_cases same : t = s
    · rw [same, pc_self] at holds
      cases holds
    · rw [pc_ne same] at holds
      exact free_move (consistent.waiting t holds) fun _ => rfl

theorem Consistent.moves (consistent : Consistent register sessions) {next : Sessions κ β σ}
    {action : Action} (moves : Moves s sessions action next)
    (meets : Undisturbed sessions action) : Consistent register next := by
  cases moves with
  | lockBegin resume here free =>
    refine consistent.relabel ?_ ?_ rfl rfl Bool.noConfusion (fun _ => free) Bool.noConfusion
    · rw [here]
      rfl
    · rw [here]
      rfl
  | begin resume here free ready => exact consistent.begin here free (meets.2 rfl)
  | recover here free dirty =>
    refine consistent.relabel ?_ ?_ rfl rfl Bool.noConfusion Bool.noConfusion Bool.noConfusion
    · rw [here]
      rfl
    · rw [here]
      rfl
  | beginFails seqno here => exact absurd rfl meets.1
  | write seqno writes block here => exact consistent.write block here
  | finish seqno writes here => exact consistent.finish here
  | lockCommit resume here free =>
    have outside : (sessions.pc s).writesShadow = false ∧ (sessions.pc s).readsShadow = false := by
      rw [here]
      cases resume with
      | none => exact ⟨rfl, rfl⟩
      | some seqno => exact ⟨rfl, rfl⟩
    refine consistent.relabel outside.1 outside.2 rfl rfl Bool.noConfusion (fun _ t ne => ?_)
      fun _ => free
    exact (or_eq_false_iff.mp (free t ne)).2
  | startCommit resume here free =>
    cases shadow : sessions.disk.shadow with
    | none =>
      refine consistent.relabel ?_ ?_ rfl rfl Bool.noConfusion Bool.noConfusion Bool.noConfusion
      · rw [here]
        rfl
      · rw [here]
        rfl
    | some blocks =>
      obtain ⟨kept, after⟩ := consistent.startCommit here shadow
      rw [Option.elim_some, if_neg (eq_false_iff.mp kept)]
      exact after
  | copy seqno block copies cleanOnly resume here => exact consistent.copy here
  | settle seqno cleanOnly resume here => exact consistent.settle here
  | clean resume here free => exact consistent.clean here free

omit [DecidableEq σ] in
theorem startSessions_consistent (register : κ → β) :
    Consistent register (startSessions register : Sessions κ β σ) := by
  refine ⟨⟨?_, fun _ => rfl, ?_⟩, ?_, ?_, ?_, fun _ _ => rfl⟩
  · exact fun _ _ _ pc => (by cases pc)
  · exact fun _ holds => Bool.noConfusion holds
  · exact fun _ holds => Bool.noConfusion holds
  · exact fun _ _ _ _ _ pc => (by cases pc)
  · exact fun _ holds => Bool.noConfusion holds

/-- Where no begin fails and no write transaction begins before a commit that is done has removed
its shadow, completed transactions stay visible and are in the register after a commit. -/
theorem completed_kept (register : κ → β)
    (reached : Reached Undisturbed register sessions) : Kept register sessions := by
  suffices consistent : Consistent register sessions from consistent.kept
  induction reached with
  | start => exact startSessions_consistent register
  | step reached moves meets induction => exact induction.moves moves meets

end

section

theorem others_free {sessions : Sessions Nat Nat Bool} {s : Bool} {holds : Pc Nat Nat → Bool}
    (other : holds (sessions.pc (!s)) = false) : sessions.Free s holds := by
  intro t ne
  have same : t = !s := by
    cases t <;> cases s <;> first | rfl | exact absurd rfl ne
  exact same ▸ other

theorem undisturbed_of_ne {sessions : Sessions Nat Nat Bool} {action : Action}
    (not_fails : action ≠ .beginFails) (not_begin : action ≠ .begin) :
    Undisturbed sessions action := ⟨not_fails, fun same => absurd same not_begin⟩

/-- The first session completes a transaction and commits it, then the second one begins another. -/
theorem completed_kept_one : ∃ sessions : Sessions Nat Nat Bool,
    sessions.completed = [[(0, 1)]] ∧ sessions.pc true = .trans 1 [(0, 2)] ∧
      Kept (fun _ => 0) sessions := by
  have at_first : Reached Undisturbed (fun _ => 0)
      (startSessions (fun _ => 0) : Sessions Nat Nat Bool) := .start
  have locked := at_first.step (.lockBegin (s := false) none rfl (others_free rfl))
    (undisturbed_of_ne (by decide) (by decide))
  have begun := locked.step (.begin (s := false) none rfl (others_free rfl) (.inl rfl))
    ⟨by decide, fun _ t => by cases t <;> rfl⟩
  have written := begun.step (.write (s := false) 0 [] (0, 1) rfl)
    (undisturbed_of_ne (by decide) (by decide))
  have finished := written.step (.finish (s := false) 0 [(0, 1)] rfl)
    (undisturbed_of_ne (by decide) (by decide))
  have waiting := finished.step (.lockCommit (s := false) none rfl (others_free rfl))
    (undisturbed_of_ne (by decide) (by decide))
  have started := waiting.step (.startCommit (s := false) none rfl (others_free rfl))
    (undisturbed_of_ne (by decide) (by decide))
  have copied := started.step (.copy (s := false) 0 (0, 1) [] false none rfl)
    (undisturbed_of_ne (by decide) (by decide))
  have settled := copied.step (.settle (s := false) 0 false none rfl)
    (undisturbed_of_ne (by decide) (by decide))
  have cleaned := settled.step (.clean (s := false) none rfl (others_free rfl))
    (undisturbed_of_ne (by decide) (by decide))
  have locked' := cleaned.step (.lockBegin (s := true) none rfl (others_free rfl))
    (undisturbed_of_ne (by decide) (by decide))
  have begun' := locked'.step (.begin (s := true) none rfl (others_free rfl) (.inl rfl))
    ⟨by decide, fun _ t => by cases t <;> rfl⟩
  have written' := begun'.step (.write (s := true) 1 [] (0, 2) rfl)
    (undisturbed_of_ne (by decide) (by decide))
  exact ⟨_, rfl, rfl, completed_kept _ written'⟩

/-- A transaction that begins and is completed before the commit of another session has removed its
shadow is lost. -/
theorem not_completed_kept :
    ¬ ∀ sessions : Sessions Nat Nat Bool,
      Reached (fun _ _ => True) (fun _ => 0) sessions → Kept (fun _ => 0) sessions := by
  intro kept
  have at_first : Reached (fun _ _ => True) (fun _ => 0)
      (startSessions (fun _ => 0) : Sessions Nat Nat Bool) := .start
  -- the first session completes a transaction and commits it
  have locked := at_first.step (.lockBegin (s := false) none rfl (others_free rfl)) trivial
  have begun := locked.step (.begin (s := false) none rfl (others_free rfl) (.inl rfl)) trivial
  have written := begun.step (.write (s := false) 0 [] (0, 1) rfl) trivial
  have finished := written.step (.finish (s := false) 0 [(0, 1)] rfl) trivial
  have waiting := finished.step (.lockCommit (s := false) none rfl (others_free rfl)) trivial
  have started := waiting.step (.startCommit (s := false) none rfl (others_free rfl)) trivial
  have copied := started.step (.copy (s := false) 0 (0, 1) [] false none rfl) trivial
  have settled := copied.step (.settle (s := false) 0 false none rfl) trivial
  -- the second session completes another one before the shadow is removed
  have locked' := settled.step (.lockBegin (s := true) none rfl (others_free rfl)) trivial
  have begun' := locked'.step (.begin (s := true) none rfl (others_free rfl) (.inl rfl)) trivial
  have written' := begun'.step (.write (s := true) 1 [] (0, 2) rfl) trivial
  have finished' := written'.step (.finish (s := true) 1 [(0, 2)] rfl) trivial
  have cleaned := finished'.step (.clean (s := false) none rfl (others_free rfl)) trivial
  have same := congrFun ((kept _ cleaned).between fun t => by cases t <;> rfl) 0
  exact absurd same (by decide)

end

end Zebra.Trans
