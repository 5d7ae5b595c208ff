import Zebra.Api.Begin
import Zebra.Api.Selection

/-!
# Failed begins

What a begin that fails leaves in the session and in the state file.  A begin for writing within a
transaction for reading stays counted, and one that cannot open the register leaves the state `d`.
-/

namespace Zebra.Api

open Function

variable {zs : Service} {answers : Answers} {zh zh' : ZebraHandle} {w w' : World} {rw : Bool}

def heldOf (lock : Option ZebraLockHandle) : List LockMode := (lock.map (·.held)).getD []

/-- The session has none of its locks. -/
structure Idle (zh : ZebraHandle) : Prop where
  normal : zh.lockNormal = some ⟨[]⟩
  shadow : zh.lockShadow = some ⟨[]⟩

theorem Idle.unlocked (idle : Idle zh) :
    { zh with lockNormal := some ⟨[]⟩, lockShadow := some ⟨[]⟩ } = zh := by
  cases zh
  simp only [ZebraHandle.mk.injEq, true_and, and_true]
  exact ⟨idle.normal.symm, idle.shadow.symm⟩

theorem Idle.heldOf (idle : Idle zh) : heldOf zh.lockNormal = [] ∧ heldOf zh.lockShadow = [] := by
  rw [idle.normal, idle.shadow]
  exact ⟨rfl, rfl⟩

theorem idle_of_held {normal shadow : ZebraLockHandle} (isNormal : zh.lockNormal = some normal)
    (isShadow : zh.lockShadow = some shadow)
    (held : heldOf zh.lockNormal = [] ∧ heldOf zh.lockShadow = []) : Idle zh := by
  rw [isNormal, isShadow] at held
  obtain ⟨noNormal, noShadow⟩ := held
  cases normal
  cases shadow
  cases noNormal
  cases noShadow
  exact ⟨isNormal, isShadow⟩

theorem unlockBoth_eq {normal shadow : ZebraLockHandle} (isNormal : zh.lockNormal = some normal)
    (isShadow : zh.lockShadow = some shadow) :
    unlockBoth zh = .ok { zh with
      lockNormal := some ⟨normal.held.tail⟩, lockShadow := some ⟨shadow.held.tail⟩ } := by
  simp [unlockBoth, lockShadow, lockNormal, isShadow, zebraUnlock, Except.map, Except.bind,
    isNormal]

/-- The locks of a write transaction by the shadow they are for. -/
def writeLocks (rval : Option Str) (zh : ZebraHandle) : ZebraHandle :=
  { zh with
    lockNormal := some ⟨[if rval.isSome then .read else .write]⟩, lockShadow := some ⟨[.write]⟩ }

theorem lockForWriting_eq (idle : Idle zh) (rval : Option Str) :
    lockForWriting rval zh = .ok (writeLocks rval zh) := by
  cases rval with
  | none =>
    simp [lockForWriting, lockNormal, lockShadow, idle.normal, idle.shadow, zebraLockW, Except.map,
      Except.bind, writeLocks]
  | some path =>
    simp [lockForWriting, lockNormal, lockShadow, idle.normal, idle.shadow, zebraLockW, zebraLockR,
      Except.map, Except.bind, writeLocks]

theorem unlockBoth_writeLocks (zh : ZebraHandle) (idle : Idle zh) (rval : Option Str) :
    unlockBoth (writeLocks rval zh) = .ok zh := by
  rw [unlockBoth_eq (show (writeLocks rval zh).lockNormal = _ from rfl) rfl]
  exact congrArg Except.ok idle.unlocked

/-- What a commit of a session without locks comes to. -/
def commitOutcome (zs : Service) (answers : Answers) (w : World) : ZebraRes × World :=
  if (zs.shadow w.zh.regName).isNone then
    (.ok, w)
  else if ¬ answers.bfsCreate then
    (.fail, w)
  else
    commitState answers false w

/-- A commit looks at the session for the name of its register only. -/
theorem commitState_zh (cleanOnly : Bool) (w : World) (zh : ZebraHandle)
    (same : zh.regName = w.zh.regName) :
    commitState answers cleanOnly { w with zh } =
      ((commitState answers cleanOnly w).1, { (commitState answers cleanOnly w).2 with zh }) := by
  have val : zebraGetState { w with zh } = zebraGetState w := congrArg w.states same
  unfold commitState
  rw [val]
  by_cases exist : answers.commitExists = true
  · by_cases clean : cleans cleanOnly (zebraGetState w).1 = true
    · simp [exist, clean, zebraSetState, same]
    · by_cases exec : answers.commitExec = true
      · simp [exist, clean, exec, zebraSetState, same]
      · simp [exist, clean, exec, zebraSetState, same]
  · simp [exist]

theorem commitState_same (cleanOnly : Bool) : (commitState answers cleanOnly w).2.zh = w.zh := by
  unfold commitState
  dsimp only
  split_ifs <;> rfl

theorem zebraCommit_idle (idle : Idle w.zh) (selected : w.zh.res = true) :
    zebraCommit zs answers w = .ok (commitOutcome zs answers w) := by
  have normal : lockNormal zebraLockW w.zh = .ok { w.zh with lockNormal := some ⟨[.write]⟩ } := by
    simp [lockNormal, idle.normal, zebraLockW, Except.map]
  have shadow : lockShadow zebraLockR { w.zh with lockNormal := some ⟨[.write]⟩ } =
      .ok { w.zh with lockNormal := some ⟨[.write]⟩, lockShadow := some ⟨[.read]⟩ } := by
    simp [lockShadow, idle.shadow, zebraLockR, Except.map]
  have both : unlockBoth
      { w.zh with lockNormal := some ⟨[.write]⟩, lockShadow := some ⟨[.read]⟩ } = .ok w.zh := by
    rw [unlockBoth_eq rfl rfl]
    exact congrArg Except.ok idle.unlocked
  have clean : cleanShadow w.zh = .ok w.zh := by
    simp only [cleanShadow, lockShadow, idle.shadow, zebraLockW, zebraUnlock, Except.map,
      Except.bind,
      ne_eq, not_true_eq_false, if_false, List.tail_cons]
    rw [← idle.shadow]
  have kept : { (commitState answers false w).2 with zh := w.zh } =
      (commitState answers false w).2 := by
    rw [← commitState_same false]
  unfold zebraCommit zebraCommitEx commitOutcome
  simp only [zebraSelectDefaultDatabase, selected, if_true, not_true_eq_false, if_false, bind,
    Except.bind, pure, Except.pure]
  split
  · rfl
  · rw [normal]
    dsimp only
    rw [shadow]
    dsimp only
    split
    · rw [both]
    · rw [commitState_zh false w
        { w.zh with lockNormal := some ⟨[.write]⟩, lockShadow := some ⟨[.read]⟩ } rfl]
      dsimp only
      rw [both]
      dsimp only
      rw [clean, kept]
      split
      · exact congrArg (fun after => Except.ok ((commitState answers false w).1, after)) kept
      · rfl

/-- What a begin that fails gives back. -/
structure Back (zh zh' : ZebraHandle) : Prop where
  transNo : zh'.transNo = zh.transNo - 1
  transWNo : zh'.transWNo = 0
  idle : Idle zh'
  res : zh'.res = zh.res

/-- A session with a write transaction. -/
structure Writing (zh zh' : ZebraHandle) : Prop where
  transNo : zh'.transNo = zh.transNo
  transWNo : zh'.transWNo = zh.transNo
  res : zh'.res = zh.res
  reg : ∃ seqno lastVal, zh'.reg = .opened seqno lastVal
  normal : ∃ mode, zh'.lockNormal = some ⟨[mode]⟩
  shadow : zh'.lockShadow = some ⟨[.write]⟩

/-- What the file system is after the begin has made sure that the last transaction is finished. -/
def finishLast (zs : Service) (answers : Answers) (w : World) : ZebraRes × World :=
  if (zebraGetState w).1 = 'o' then (.ok, w) else commitOutcome zs answers w

theorem commitOutcome_zh (w : World) (zh : ZebraHandle) (same : zh.regName = w.zh.regName) :
    commitOutcome zs answers { w with zh } =
      ((commitOutcome zs answers w).1, { (commitOutcome zs answers w).2 with zh }) := by
  unfold commitOutcome
  rw [same]
  split
  · rfl
  · split
    · rfl
    · exact commitState_zh false w zh same

/-- A commit looks at the session for its register and its locks only. -/
theorem zebraCommit_zh (w : World) (zh : ZebraHandle) (idle : Idle zh) (selected : zh.res = true)
    (same : zh.regName = w.zh.regName) :
    zebraCommit zs answers { w with zh } =
      .ok ((commitOutcome zs answers w).1, { (commitOutcome zs answers w).2 with zh }) := by
  have idle' : Idle ({ w with zh } : World).zh := idle
  rw [zebraCommit_idle idle' selected, commitOutcome_zh w zh same]

theorem finishLast_zh (zs : Service) (answers : Answers) (w : World) (zh : ZebraHandle)
    (same : zh.regName = w.zh.regName) :
    finishLast zs answers { w with zh } =
      ((finishLast zs answers w).1, { (finishLast zs answers w).2 with zh }) := by
  have val : zebraGetState { w with zh } = zebraGetState w := congrArg w.states same
  unfold finishLast
  rw [val]
  split
  · rfl
  · exact commitOutcome_zh w zh same

theorem openForWriting_eq (answers : Answers) (idle : Idle zh) (rval : Option Str)
    (states : Str → Char × Int) (seqno : Int) (same : zh.transWNo = zh.transNo) :
    ∃ zh', openForWriting answers ⟨writeLocks rval zh, states⟩ seqno =
        .ok (if answers.registerOpen then .ok else .fail,
          ⟨zh', update states zh.regName ('d', seqno)⟩) ∧
      (answers.registerOpen = true → Writing zh zh') ∧
      (answers.registerOpen = false → Back zh zh' ∧ zh'.reg = .null) := by
  unfold openForWriting
  cases opens : answers.registerOpen with
  | true =>
    refine ⟨_, rfl, fun _ => ⟨rfl, same, rfl, ⟨seqno, none, rfl⟩, ⟨_, rfl⟩, rfl⟩, ?_⟩
    exact fun closed => Bool.noConfusion closed
  | false =>
    have unlocked : unlockBoth { writeLocks rval zh with reg := .null } =
        .ok { zh with reg := .null } :=
      unlockBoth_writeLocks { zh with reg := .null } ⟨idle.normal, idle.shadow⟩ rval
    dsimp only [zebraSetState, Bool.false_eq_true, if_false]
    rw [unlocked]
    exact ⟨_, rfl, fun opened => Bool.noConfusion opened,
      fun _ => ⟨⟨rfl, rfl, ⟨idle.normal, idle.shadow⟩, rfl⟩, rfl⟩⟩

theorem leaveRegister_ok (zh : ZebraHandle) (live : zh.reg ≠ .closed) :
    ∃ reg, leaveRegister zh = .ok { zh with reg } ∧ (zh.reg = .null → reg = .null) := by
  unfold leaveRegister
  split
  · rename_i null
    exact ⟨zh.reg, rfl, id⟩
  · rename_i closed
    exact absurd closed live
  · rename_i opened
    refine ⟨.closed, rfl, fun null => ?_⟩
    rw [null] at opened
    cases opened

/-- A begin for writing in a session without locks, where the last transaction can be finished. -/
theorem beginFirstWrite_ok (zs : Service) (answers : Answers) (w : World) (idle : Idle w.zh)
    (selected : w.zh.res = true)
    (live : w.zh.reg ≠ .closed) (finished : (finishLast zs answers w).1 = .ok) :
    ∃ zh', beginFirstWrite zs answers w =
        .ok (if answers.registerOpen then .ok else .fail,
          ⟨zh', update (finishLast zs answers w).2.states w.zh.regName
            ('d', (zebraGetState w).2)⟩) ∧
      (answers.registerOpen = true → Writing w.zh zh') ∧
      (answers.registerOpen = false → Back w.zh zh' ∧ zh'.reg = .null) := by
  obtain ⟨reg, left, -⟩ := leaveRegister_ok _ live
  have idle' : Idle { w.zh with reg, transWNo := w.zh.transNo } := ⟨idle.normal, idle.shadow⟩
  unfold beginFirstWrite
  rw [left]
  simp only [bind, Except.bind, pure, Except.pure]
  generalize (if w.zh.shadowEnable = true then zs.shadow w.zh.regName else none) = rval
  rw [lockForWriting_eq idle']
  dsimp only
  obtain ⟨zh', opened, writing, back⟩ := openForWriting_eq answers idle' rval
    (finishLast zs answers w).2.states (zebraGetState w).2 rfl
  refine ⟨zh', ?_, ?_, ?_⟩
  · rw [← opened]
    unfold finishLast at finished ⊢
    split
    · rename_i clean
      have clean : (zebraGetState w).1 = 'o' := clean
      rw [if_pos clean]
      rfl
    · rename_i unclean
      have unclean : (zebraGetState w).1 ≠ 'o' := unclean
      rw [if_neg unclean] at finished ⊢
      rw [unlockBoth_writeLocks _ idle']
      dsimp only
      rw [zebraCommit_zh w _ idle' selected rfl, finished]
      dsimp only
      rw [if_neg ZebraRes.noConfusion, lockForWriting_eq idle']
      rfl
  · intro opens
    obtain ⟨transNo, transWNo, res, reg, normal, shadow⟩ := writing opens
    exact ⟨transNo, transWNo, res, reg, normal, shadow⟩
  · intro closed
    obtain ⟨⟨transNo, transWNo, idle, res⟩, null⟩ := back closed
    exact ⟨⟨transNo, transWNo, idle, res⟩, null⟩

/-- A begin for writing in a session without locks, where the commit fails. -/
theorem beginFirstWrite_fail (zs : Service) (answers : Answers) (w : World) (idle : Idle w.zh)
    (selected : w.zh.res = true)
    (live : w.zh.reg ≠ .closed) (unfinished : (finishLast zs answers w).1 = .fail) :
    ∃ zh', beginFirstWrite zs answers w = .ok (.fail, ⟨zh', (finishLast zs answers w).2.states⟩) ∧
      Back w.zh zh' ∧ (w.zh.reg = .null → zh'.reg = .null) := by
  obtain ⟨reg, left, null⟩ := leaveRegister_ok _ live
  have idle' : Idle { w.zh with reg, transWNo := w.zh.transNo } := ⟨idle.normal, idle.shadow⟩
  unfold beginFirstWrite
  rw [left]
  simp only [bind, Except.bind, pure, Except.pure]
  generalize (if w.zh.shadowEnable = true then zs.shadow w.zh.regName else none) = rval
  rw [lockForWriting_eq idle']
  dsimp only
  unfold finishLast at unfinished ⊢
  split
  · rename_i clean
    have clean : (zebraGetState w).1 = 'o' := clean
    rw [if_pos clean] at unfinished
    cases unfinished
  · rename_i unclean
    have unclean : (zebraGetState w).1 ≠ 'o' := unclean
    rw [if_neg unclean] at unfinished ⊢
    rw [unlockBoth_writeLocks _ idle']
    dsimp only
    rw [zebraCommit_zh w _ idle' selected rfl, unfinished]
    exact ⟨_, rfl, ⟨rfl, rfl, ⟨idle.normal, idle.shadow⟩, rfl⟩, null⟩

def Light (zh : ZebraHandle) : Prop :=
  ∃ normal shadow, zh.lockNormal = some normal ∧ zh.lockShadow = some shadow ∧
    normal.held.length ≤ 1 ∧ shadow.held.length ≤ 1

theorem Writing.light (writing : Writing zh zh') : Light zh' := by
  obtain ⟨mode, normal⟩ := writing.normal
  exact ⟨_, _, normal, writing.shadow, Nat.le_refl _, Nat.le_refl _⟩

theorem Idle.light (idle : Idle zh) : Light zh :=
  ⟨_, _, idle.normal, idle.shadow, Nat.zero_le _, Nat.zero_le _⟩

theorem Light.unlock (light : Light zh) :
    ∃ normal shadow, zh.lockNormal = some normal ∧ zh.lockShadow = some shadow ∧
      unlockBoth zh = .ok { zh with lockNormal := some ⟨[]⟩, lockShadow := some ⟨[]⟩ } := by
  obtain ⟨normal, shadow, isNormal, isShadow, one, one'⟩ := light
  have noNormal : normal.held.tail = [] :=
    List.eq_nil_of_length_eq_zero (by rw [List.length_tail]; omega)
  have noShadow : shadow.held.tail = [] :=
    List.eq_nil_of_length_eq_zero (by rw [List.length_tail]; omega)
  refine ⟨normal, shadow, isNormal, isShadow, ?_⟩
  rw [unlockBoth_eq isNormal isShadow, noNormal, noShadow]

theorem lockForReading_ok (idle : Idle zh) (val : Char) :
    ∃ normal shadow, lockForReading val zh =
        .ok { zh with lockNormal := some normal, lockShadow := some shadow } ∧
      normal.held.length ≤ 1 ∧ shadow.held.length ≤ 1 := by
  unfold lockForReading
  split
  · refine ⟨⟨[]⟩, ⟨[.read]⟩, ?_, Nat.zero_le _, Nat.le_refl _⟩
    have locked : lockShadow zebraLockR zh = .ok { zh with lockShadow := some ⟨[.read]⟩ } := by
      simp [lockShadow, idle.shadow, zebraLockR, Except.map]
    rw [locked, ← idle.normal]
  · refine ⟨⟨[.read]⟩, ⟨[]⟩, ?_, Nat.le_refl _, Nat.zero_le _⟩
    have locked : lockNormal zebraLockR zh = .ok { zh with lockNormal := some ⟨[.read]⟩ } := by
      simp [lockNormal, idle.normal, zebraLockR, Except.map]
    rw [locked, ← idle.shadow]

theorem dirty_ok (live : zh.reg ≠ .closed) (val : Char) (seqno : Int) :
    ∃ d, dirty zh val seqno = .ok d ∧
      (d = false → ∃ seqno lastVal, zh.reg = .opened seqno lastVal) := by
  unfold dirty
  split
  · exact ⟨true, rfl, fun clean => Bool.noConfusion clean⟩
  · rename_i closed
    exact absurd closed live
  · rename_i opened
    exact ⟨_, rfl, fun _ => ⟨_, _, opened⟩⟩

theorem beginFirstRead_eq (answers : Answers) (idle : Idle w.zh) (live : w.zh.reg ≠ .closed) :
    ∃ res zh', beginFirstRead answers w = .ok (res, ⟨zh', w.states⟩) ∧
      zh'.transWNo = w.zh.transWNo ∧ zh'.res = w.zh.res ∧
      (res = .ok → zh'.transNo = w.zh.transNo ∧ (∃ seqno lastVal, zh'.reg = .opened seqno lastVal) ∧
        Light zh') ∧
      (res = .fail → zh'.transNo = w.zh.transNo - 1 ∧ Idle zh' ∧ zh'.reg = .null) := by
  unfold beginFirstRead
  simp only [bind, Except.bind, pure, Except.pure]
  generalize (if (zebraGetState w).1 = 'd' then 'o' else (zebraGetState w).1) = val
  obtain ⟨d, isDirty, opened⟩ := dirty_ok live val (zebraGetState w).2
  rw [isDirty]
  dsimp only
  cases d with
  | false =>
    refine ⟨.ok, w.zh, rfl, rfl, rfl, fun _ => ⟨rfl, opened rfl, idle.light⟩, ?_⟩
    exact fun failed => ZebraRes.noConfusion failed
  | true =>
    obtain ⟨normal, shadow, locked, one, one'⟩ := lockForReading_ok idle val
    obtain ⟨reg, left, -⟩ :=
      leaveRegister_ok { w.zh with lockNormal := some normal, lockShadow := some shadow } live
    rw [if_pos rfl, locked]
    dsimp only
    rw [left]
    dsimp only
    split
    · refine ⟨.ok, _, rfl, rfl, rfl, fun _ => ⟨rfl, ⟨_, _, rfl⟩, ?_⟩, ?_⟩
      · exact ⟨_, _, rfl, rfl, one, one'⟩
      · exact fun failed => ZebraRes.noConfusion failed
    · have light : Light { w.zh with
          lockNormal := some normal, lockShadow := some shadow, reg := .null } :=
        ⟨_, _, rfl, rfl, one, one'⟩
      obtain ⟨-, -, -, -, unlocked⟩ := light.unlock
      rw [unlocked]
      refine ⟨.fail, _, rfl, rfl, rfl, fun ok => ZebraRes.noConfusion ok, ?_⟩
      exact fun _ => ⟨rfl, ⟨rfl, rfl⟩, rfl⟩

def target (zs : Service) (zh : ZebraHandle) : Str :=
  if zh.res then zh.regName else regOf zs.defaultDatabase

/-- The session has databases, or the default database can be selected. -/
def Reachable (zs : Service) (answers : Answers) (zh : ZebraHandle) : Prop :=
  zh.res = true ∨ (accessDenied zh.dbaccesslist [zs.defaultDatabase] = false ∧
    Available zs answers.lockCreate zh (regOf zs.defaultDatabase))

/-- What sessions have of their register and locks in runs of begins and ends. -/
structure Sane (zh : ZebraHandle) : Prop where
  live : zh.reg ≠ .closed
  locks : zh.res = true → zh.lockNormal ≠ none ∧ zh.lockShadow ≠ none
  unselected : zh.res = false →
    zh.reg = .null ∧ heldOf zh.lockNormal = [] ∧ heldOf zh.lockShadow = []

/-- What the selection of the default database leaves of the transaction. -/
structure Chosen (zs : Service) (answers : Answers) (zh zh' : ZebraHandle) : Prop where
  transNo : zh'.transNo = zh.transNo
  transWNo : zh'.transWNo = zh.transWNo
  userPerm : zh'.userPerm = zh.userPerm
  normal : heldOf zh'.lockNormal = heldOf zh.lockNormal
  shadow : heldOf zh'.lockShadow = heldOf zh.lockShadow
  res : zh'.res = true ↔ Reachable zs answers zh
  regName : zh'.res = true → zh'.regName = target zs zh
  reg : zh'.reg = zh.reg
  sane : Sane zh'

theorem openRegister_chosen (zs : Service) (lockCreate : Str → Bool) (newReg : Str)
    (zh : ZebraHandle) : let zh' := openRegister zs lockCreate zh newReg
    zh'.transNo = zh.transNo ∧ zh'.transWNo = zh.transWNo ∧ zh'.userPerm = zh.userPerm ∧
      heldOf zh'.lockNormal = [] ∧ heldOf zh'.lockShadow = [] ∧ zh'.reg = zh.reg := by
  unfold openRegister createLocks
  dsimp only
  generalize (zs.pathRoot.map fun root => if newReg = [] then root else root ++ '/' :: newReg) =
    path
  split
  · split
    · exact ⟨rfl, rfl, rfl, rfl, rfl, rfl⟩
    · exact ⟨rfl, rfl, rfl, rfl, rfl, rfl⟩
  · exact ⟨rfl, rfl, rfl, rfl, rfl, rfl⟩

theorem checkSelected_snd (zh : ZebraHandle) :
    ∃ errCode, (checkSelected zh).2 = { zh with errCode } := by
  unfold checkSelected
  split
  · exact ⟨_, rfl⟩
  · split
    · exact ⟨_, rfl⟩
    · exact ⟨_, rfl⟩

theorem chosen_refl (sane : Sane zh) (selected : zh.res = true) : Chosen zs answers zh zh where
  transNo := rfl
  transWNo := rfl
  userPerm := rfl
  normal := rfl
  shadow := rfl
  res := ⟨fun _ => .inl selected, fun _ => selected⟩
  regName := fun _ => (if_pos selected).symm
  reg := rfl
  sane := sane

theorem select_unselected (sane : Sane zh) (unselected : zh.res = false) (database : Str) :
    zebraSelectDatabase zs answers.lockCreate zh database =
      if accessDenied zh.dbaccesslist [database] = true then
        .ok (.fail, { zh with errCode := .accessToSpecifiedDatabaseDenied })
      else if zh.regName = [] then
        .ok (checkSelected (openRegister zs answers.lockCreate
          { zh with errCode := .none, basenames := [database] } (regOf database)))
      else
        .error .assertion := by
  unfold zebraSelectDatabase zebraSelectDatabases zebraSelectRegister
  simp only [List.all_nil, if_true, unselected, Bool.false_eq_true, false_and, if_false,
    (sane.unselected unselected).1, true_and]
  split
  · rfl
  · split
    · rfl
    · rfl

theorem reachable_unselected (unselected : zh.res = false) :
    Reachable zs answers zh ↔ accessDenied zh.dbaccesslist [zs.defaultDatabase] = false ∧
      Creatable zs answers.lockCreate (regOf zs.defaultDatabase) := by
  simp [Reachable, Available, unselected]

theorem zebraSelectDefaultDatabase_chosen (sane : Sane zh) {res : ZebraRes}
    (returned : zebraSelectDefaultDatabase zs answers.lockCreate zh = .ok (res, zh')) :
    Chosen zs answers zh zh' := by
  unfold zebraSelectDefaultDatabase at returned
  by_cases selected : zh.res = true
  · rw [if_pos selected] at returned
    cases returned
    exact chosen_refl sane selected
  have unselected : zh.res = false := Bool.eq_false_iff.mpr selected
  obtain ⟨null, noNormal, noShadow⟩ := sane.unselected unselected
  have live : zh.reg ≠ .closed := sane.live
  rw [if_neg selected, select_unselected sane unselected] at returned
  by_cases denied : accessDenied zh.dbaccesslist [zs.defaultDatabase] = true
  · rw [if_pos denied] at returned
    cases returned
    refine ⟨rfl, rfl, rfl, rfl, rfl, ?_, ?_, rfl, ⟨live, sane.locks, sane.unselected⟩⟩
    · simp [Reachable, unselected, denied]
    · intro opened
      exact absurd opened selected
  rw [if_neg denied] at returned
  split at returned
  swap
  · cases returned
  obtain ⟨-, regName, locks, -, live'⟩ := openRegister_selected zs answers.lockCreate
    (regOf zs.defaultDatabase) { zh with errCode := .none, basenames := [zs.defaultDatabase] } null
  obtain ⟨transNo, transWNo, userPerm, normal, shadow, reg⟩ := openRegister_chosen zs
    answers.lockCreate (regOf zs.defaultDatabase)
    { zh with errCode := .none, basenames := [zs.defaultDatabase] }
  have placed : (openRegister zs answers.lockCreate
      { zh with errCode := .none, basenames := [zs.defaultDatabase] }
        (regOf zs.defaultDatabase)).res = true ↔ _ := openRegister_res
  generalize openRegister zs answers.lockCreate
    { zh with errCode := .none, basenames := [zs.defaultDatabase] } (regOf zs.defaultDatabase) =
    opened at *
  obtain ⟨errCode, checked⟩ := checkSelected_snd opened
  obtain rfl : zh' = { opened with errCode } :=
    (congrArg Prod.snd (Except.ok.inj returned)).symm.trans checked
  refine ⟨transNo, transWNo, userPerm, normal.trans noNormal.symm,
    shadow.trans noShadow.symm, ?_, ?_,
    reg, ⟨live', locks, fun _ => ⟨reg.trans null, normal, shadow⟩⟩⟩
  · rw [reachable_unselected unselected]
    exact ⟨fun selected => ⟨Bool.eq_false_iff.mpr denied, placed.mp selected⟩,
      fun reached => placed.mpr reached.2⟩
  · intro _
    exact regName.trans (if_neg selected).symm

/-- The selection of the default database stops at an assertion only, which a register name left by
a failed selection makes fail. -/
theorem zebraSelectDefaultDatabase_stop (sane : Sane zh) {stop : Stop}
    (stopped : zebraSelectDefaultDatabase zs answers.lockCreate zh = .error stop) :
    stop = .assertion ∧ zh.res = false ∧ zh.regName ≠ [] := by
  unfold zebraSelectDefaultDatabase at stopped
  split at stopped
  · cases stopped
  · rename_i selected
    have unselected : zh.res = false := Bool.eq_false_iff.mpr selected
    rw [select_unselected sane unselected] at stopped
    split at stopped
    · cases stopped
    · split at stopped
      · cases stopped
      · rename_i named
        cases stopped
        exact ⟨rfl, unselected, named⟩

/-- The commit of a begin fails: there is a shadow, and it cannot be read or a commit that is not to
throw it away cannot be carried out. -/
def CommitFails (zs : Service) (answers : Answers) (reg : Str) (letter : Char) : Prop :=
  zs.shadow reg ≠ none ∧ (answers.bfsCreate = false ∨
    (answers.commitExists = true ∧ answers.commitExec = false ∧ letter ≠ 'd'))

/-- A begin for writing that gets to the state file leaves its letter or succeeds: the register can
be opened or the letter is `d` as it is, and if the commit fails, it has not written the letter or
the letter is `c` as it is. -/
def KeepsState (zs : Service) (answers : Answers) (reg : Str) (letter : Char) : Prop :=
  (letter ≠ 'o' ∧ CommitFails zs answers reg letter → answers.bfsCreate = false ∨ letter = 'c') ∧
    (¬ (letter ≠ 'o' ∧ CommitFails zs answers reg letter) →
      answers.registerOpen = true ∨ letter = 'd')

theorem commitState_other {cleanOnly : Bool} {reg : Str} (other : reg ≠ w.zh.regName) :
    (commitState answers cleanOnly w).2.states reg = w.states reg := by
  unfold commitState
  dsimp only
  split_ifs <;> simp [zebraSetState, other]

theorem finishLast_other {reg : Str} (other : reg ≠ w.zh.regName) :
    (finishLast zs answers w).2.states reg = w.states reg := by
  unfold finishLast commitOutcome
  split
  · rfl
  · split
    · rfl
    · split
      · rfl
      · exact commitState_other other

theorem commitState_fail {cleanOnly : Bool} :
    (commitState answers cleanOnly w).1 = .fail ↔
      answers.commitExists = true ∧ cleans cleanOnly (zebraGetState w).1 = false ∧
        answers.commitExec = false := by
  unfold commitState
  dsimp only
  split_ifs <;> simp_all

theorem commitState_letter {cleanOnly : Bool} (failed : (commitState answers cleanOnly w).1 =
    .fail) :
    ((commitState answers cleanOnly w).2.states w.zh.regName).1 = 'c' := by
  obtain ⟨exist, clean, exec⟩ := commitState_fail.mp failed
  simp [commitState, exist, clean, exec, zebraSetState]

theorem cleans_false {letter : Char} : cleans false letter = false ↔ letter ≠ 'd' := by
  unfold cleans
  split
  · rename_i dirty
    simp [dirty]
  · rename_i other
    simp [other]

theorem finishLast_fail :
    (finishLast zs answers w).1 = .fail ↔
      (w.states w.zh.regName).1 ≠ 'o' ∧
        CommitFails zs answers w.zh.regName (w.states w.zh.regName).1 := by
  unfold finishLast commitOutcome CommitFails zebraGetState
  by_cases clean : (w.states w.zh.regName).1 = 'o'
  · simp [clean]
  rw [if_neg clean]
  cases shadow : zs.shadow w.zh.regName with
  | none => simp
  | some path =>
    cases create : answers.bfsCreate with
    | false => simp [clean]
    | true =>
      simp only [Option.isNone_some, Bool.false_eq_true, if_false, not_true_eq_false,
        commitState_fail, cleans_false]
      simp [clean, zebraGetState]
      tauto

/-- Where the commit fails, the letters are as they were exactly if it has not got to the state or
the letter is `c`. -/
theorem finishLast_letters (failed : (finishLast zs answers w).1 = .fail) :
    (∀ reg, ((finishLast zs answers w).2.states reg).1 = (w.states reg).1) ↔
      answers.bfsCreate = false ∨ (w.states w.zh.regName).1 = 'c' := by
  obtain ⟨unclean, shadow, -⟩ := finishLast_fail.mp failed
  have committed : finishLast zs answers w = commitOutcome zs answers w := if_neg unclean
  have present : ¬ (zs.shadow w.zh.regName).isNone = true := by
    rw [Option.isNone_iff_eq_none]
    exact shadow
  cases create : answers.bfsCreate with
  | false =>
    have same : commitOutcome zs answers w = (.fail, w) := by
      simp [commitOutcome, present, create]
    rw [committed, same]
    simp
  | true =>
    have state : commitOutcome zs answers w = commitState answers false w := by
      simp [commitOutcome, present, create]
    rw [committed, state] at failed ⊢
    have letter := commitState_letter failed
    constructor
    · intro kept
      exact .inr ((kept w.zh.regName).symm.trans letter)
    · rintro (none | same)
      · cases none
      · intro reg
        by_cases own : reg = w.zh.regName
        · rw [own, letter, same]
        · rw [commitState_other own]

/-- Where the register cannot be opened, the letters are as they were exactly if the letter is
`d`. -/
theorem dirty_letters {seqno : Int} :
    (∀ reg, (update (finishLast zs answers w).2.states w.zh.regName ('d', seqno) reg).1 =
        (w.states reg).1) ↔ (w.states w.zh.regName).1 = 'd' := by
  constructor
  · intro kept
    have own := kept w.zh.regName
    rw [update_self] at own
    exact own.symm
  · intro letter reg
    by_cases own : reg = w.zh.regName
    · rw [own, update_self, letter]
    · rw [update_of_ne own, finishLast_other own]

end Zebra.Api
