import Zebra.Api.Traces

/-!
# Begins and ends

When a failed begin leaves no trace, and runs of begins and ends in which only successful begins are
ended.
-/

namespace Zebra.Api

open Option

variable {zs : Service} {answers : Answers} {zh : ZebraHandle} {w w' : World} {rw : Bool}
  {res : ZebraRes}

/-- A session outside of a begin. -/
structure Coherent (zh : ZebraHandle) : Prop where
  sane : Sane zh
  unselected : zh.res = false → zh.regName = []
  outside : zh.transNo = 0 →
    zh.transWNo = 0 ∧ heldOf zh.lockNormal = [] ∧ heldOf zh.lockShadow = []

/-- The counters, the locks of the session and the state letters are as before. -/
def Restored (w w' : World) : Prop :=
  w'.zh.transNo = w.zh.transNo ∧ w'.zh.transWNo = w.zh.transWNo ∧
    heldOf w'.zh.lockNormal = heldOf w.zh.lockNormal ∧
    heldOf w'.zh.lockShadow = heldOf w.zh.lockShadow ∧
    ∀ reg, (w'.states reg).1 = (w.states reg).1

/-- If the begin fails, the counters, the locks of the session and the state letters are as
before. -/
def Traceless (zs : Service) (answers : Answers) (w : World) (rw : Bool) : Prop :=
  ∀ w', zebraBeginTrans zs answers w rw = .ok (.fail, w') → Restored w w'

/-- The begin does not get to its counters, or it is for reading, or within a write transaction, or
outside of any transaction with what keeps the state letter. -/
def Tidy (zs : Service) (answers : Answers) (w : World) (rw : Bool) : Prop :=
  ¬ Reachable zs answers w.zh ∨ rw = false ∨ mayNotWrite w.zh = true ∨ w.zh.transWNo ≠ 0 ∨
    (w.zh.transNo = 0 ∧
      KeepsState zs answers (target zs w.zh) (w.states (target zs w.zh)).1)

theorem Sane.idle (sane : Sane zh) (selected : zh.res = true)
    (held : heldOf zh.lockNormal = [] ∧ heldOf zh.lockShadow = []) : Idle zh := by
  obtain ⟨hasNormal, hasShadow⟩ := sane.locks selected
  obtain ⟨normal, isNormal⟩ := ne_none_iff_exists'.mp hasNormal
  obtain ⟨shadow, isShadow⟩ := ne_none_iff_exists'.mp hasShadow
  exact idle_of_held isNormal isShadow held

/-- What `zebra_begin_trans` goes on with after the default database. -/
def beginSelected (zs : Service) (answers : Answers) (w : World) (rw : Bool) :
    Except Stop (ZebraRes × World) :=
  if ¬ w.zh.res then
    .ok (.fail, { w with
      zh := zebraSetError w.zh .temporarySystemError
        (some "zebra_begin_trans: no database selected") })
  else if rw ∧ mayNotWrite w.zh then
    .ok (.fail, { w with zh := zebraSetError w.zh .permissionDenied none })
  else if rw then
    beginWrite zs answers w
  else
    beginRead answers w

theorem zebraBeginTrans_eq {zh : ZebraHandle}
    (selected : zebraSelectDefaultDatabase zs answers.lockCreate w.zh = .ok (res, zh)) :
    zebraBeginTrans zs answers w rw = beginSelected zs answers { w with zh } rw := by
  unfold zebraBeginTrans
  rw [selected]
  rfl

/-- A begin for writing outside of any transaction: if it fails, it has kept the state letters
exactly under the condition. -/
theorem beginWrite_first (zs : Service) (answers : Answers) (sane : Sane w.zh)
    (selected : w.zh.res = true) (outside : w.zh.transNo = 0) (noWrite : w.zh.transWNo = 0)
    (held : heldOf w.zh.lockNormal = [] ∧ heldOf w.zh.lockShadow = []) :
    ∃ res w', beginWrite zs answers w = .ok (res, w') ∧
      (res = .ok → Writing { w.zh with transNo := 1 } w'.zh ∧ answers.registerOpen = true ∧
        (finishLast zs answers w).1 = .ok) ∧
      (res = .fail → Back { w.zh with transNo := 1 } w'.zh ∧
        ((∀ reg, (w'.states reg).1 = (w.states reg).1) ↔
          KeepsState zs answers w.zh.regName (w.states w.zh.regName).1) ∧
        (w.zh.reg = .null ∨ (finishLast zs answers w).1 = .ok → w'.zh.reg = .null)) := by
  have idle := sane.idle selected held
  have idle' : Idle { w.zh with transNo := 1 } := ⟨idle.normal, idle.shadow⟩
  have first : beginWrite zs answers w =
      beginFirstWrite zs answers { w with zh := { w.zh with transNo := 1 } } := by
    unfold beginWrite
    simp [noWrite, outside]
  have finish := finishLast_zh zs answers w { w.zh with transNo := 1 } rfl
  rw [first]
  cases finished : (finishLast zs answers w).1 with
  | ok =>
    have finished' : (finishLast zs answers
        { w with zh := { w.zh with transNo := 1 } }).1 = .ok := by rw [finish, finished]
    have nofail : ¬ ((w.states w.zh.regName).1 ≠ 'o' ∧
        CommitFails zs answers w.zh.regName (w.states w.zh.regName).1) := by
      rw [← finishLast_fail, finished]
      exact fun failed => ZebraRes.noConfusion failed
    obtain ⟨zh', begun, writing, back⟩ := beginFirstWrite_ok zs answers
      { w with zh := { w.zh with transNo := 1 } } idle' selected sane.live finished'
    refine ⟨_, _, begun, ?_, ?_⟩
    · intro ok
      cases opens : answers.registerOpen with
      | true => exact ⟨writing opens, rfl, rfl⟩
      | false =>
        rw [opens] at ok
        cases ok
    · intro failed
      cases opens : answers.registerOpen with
      | true =>
        rw [opens] at failed
        cases failed
      | false =>
        obtain ⟨back, null⟩ := back opens
        refine ⟨back, ?_, fun _ => null⟩
        rw [finish]
        refine dirty_letters.trans ?_
        simp [KeepsState, nofail, opens]
  | fail =>
    have failed' : (finishLast zs answers
        { w with zh := { w.zh with transNo := 1 } }).1 = .fail := by rw [finish, finished]
    have fails := finishLast_fail.mp finished
    obtain ⟨zh', begun, back, null⟩ := beginFirstWrite_fail zs answers
      { w with zh := { w.zh with transNo := 1 } } idle' selected sane.live failed'
    refine ⟨_, _, begun, fun ok => ZebraRes.noConfusion ok, fun _ => ⟨back, ?_, ?_⟩⟩
    · rw [finish]
      refine (finishLast_letters finished).trans ?_
      simp [KeepsState, fails]
    · rintro (none | ok)
      · exact null none
      · cases ok

theorem beginRead_first (answers : Answers) (sane : Sane w.zh) (selected : w.zh.res = true)
    (outside : w.zh.transNo = 0)
    (held : heldOf w.zh.lockNormal = [] ∧ heldOf w.zh.lockShadow = []) :
    ∃ res w', beginRead answers w = .ok (res, w') ∧ w'.states = w.states ∧
      w'.zh.transWNo = w.zh.transWNo ∧ w'.zh.res = true ∧
      (res = .ok → w'.zh.transNo = 1 ∧ (∃ seqno lastVal, w'.zh.reg = .opened seqno lastVal) ∧
        Light w'.zh) ∧
      (res = .fail → w'.zh.transNo = 0 ∧ Idle w'.zh ∧ w'.zh.reg = .null) := by
  have idle := sane.idle selected held
  have idle' : Idle { w.zh with transNo := 1 } := ⟨idle.normal, idle.shadow⟩
  have first : beginRead answers w =
      beginFirstRead answers { w with zh := { w.zh with transNo := 1 } } := by
    unfold beginRead
    simp [outside, selected, idle.normal, idle.shadow]
  obtain ⟨res, zh', begun, transWNo, res', ok, fail⟩ :=
    beginFirstRead_eq (w := { w with zh := { w.zh with transNo := 1 } }) answers idle' sane.live
  exact ⟨res, ⟨zh', w.states⟩, first.trans begun, rfl, transWNo, res'.trans selected, ok, fail⟩

/-- A begin for reading within a transaction only counts. -/
theorem beginRead_nested (inside : w.zh.transNo ≠ 0) (begun : beginRead answers w = .ok (res, w')) :
    res = .ok ∧ w' = { w with zh := { w.zh with transNo := w.zh.transNo + 1 } } := by
  unfold beginRead at begun
  have nested : w.zh.transNo + 1 ≠ 1 := fun first => inside (by omega)
  rw [if_pos nested] at begun
  obtain ⟨flushed, flush, same⟩ := map_eq_ok.mp begun
  cases same
  unfold zebraFlushReg at flush
  split at flush
  · cases flush
    exact ⟨rfl, rfl⟩
  · cases flush

theorem beginWrite_nested (inside : w.zh.transWNo ≠ 0) :
    beginWrite zs answers w = .ok (.ok,
      { w with zh := { w.zh with transNo := w.zh.transNo + 1 } }) :=
  if_pos inside

/-- A begin for writing within a transaction for reading stays counted. -/
theorem beginWrite_withinRead (zs : Service) (answers : Answers) (noWrite : w.zh.transWNo = 0)
    (inside : w.zh.transNo ≠ 0) :
    ∃ w', beginWrite zs answers w = .ok (.fail, w') ∧ w'.zh.transNo = w.zh.transNo + 1 := by
  have nested : w.zh.transNo + 1 ≠ 1 := fun first => inside (by omega)
  unfold beginWrite
  rw [if_neg (not_not.mpr noWrite), if_pos nested]
  exact ⟨_, rfl, rfl⟩

theorem mayNotWrite_chosen {zh' : ZebraHandle} (chosen : Chosen zs answers zh zh') :
    mayNotWrite zh' = mayNotWrite zh := by
  unfold mayNotWrite
  rw [chosen.userPerm]

theorem Chosen.restored (chosen : Chosen zs answers w.zh zh) :
    Restored { w with zh } w' ↔ Restored w w' := by
  unfold Restored
  dsimp only
  rw [chosen.transNo, chosen.transWNo, chosen.normal, chosen.shadow]

theorem keepsState_of_ok (opens : answers.registerOpen = true)
    (finished : (finishLast zs answers w).1 = .ok) :
    KeepsState zs answers w.zh.regName (w.states w.zh.regName).1 := by
  refine ⟨fun fails => ?_, fun _ => .inl opens⟩
  rw [finishLast_fail.mpr fails] at finished
  cases finished

theorem beginWrite_restored (sane : Sane w.zh) (selected : w.zh.res = true)
    (outside : w.zh.transNo = 0 →
      w.zh.transWNo = 0 ∧ heldOf w.zh.lockNormal = [] ∧ heldOf w.zh.lockShadow = []) :
    (∀ w', beginWrite zs answers w = .ok (.fail, w') → Restored w w') ↔
      w.zh.transWNo ≠ 0 ∨
        (w.zh.transNo = 0 ∧ KeepsState zs answers w.zh.regName (w.states w.zh.regName).1) := by
  by_cases write : w.zh.transWNo = 0
  · by_cases first : w.zh.transNo = 0
    · obtain ⟨-, held⟩ := outside first
      obtain ⟨res, w', begun, ok, fail⟩ :=
        beginWrite_first zs answers sane selected first write held
      rw [begun]
      cases res with
      | ok =>
        obtain ⟨-, opens, finished⟩ := ok rfl
        refine ⟨fun _ => .inr ⟨first, keepsState_of_ok opens finished⟩, fun _ w' failed => ?_⟩
        cases failed
      | fail =>
        obtain ⟨back, letters, -⟩ := fail rfl
        obtain ⟨noNormal, noShadow⟩ := back.idle.heldOf
        constructor
        · intro restored
          exact .inr ⟨first, letters.mp (restored w' rfl).2.2.2.2⟩
        · rintro (inside | ⟨-, keeps⟩) after failed
          · exact absurd write inside
          · cases failed
            refine ⟨?_, ?_, ?_, ?_, letters.mpr keeps⟩
            · rw [back.transNo, first]
              rfl
            · rw [back.transWNo, write]
            · rw [noNormal, held.1]
            · rw [noShadow, held.2]
    · obtain ⟨w', begun, counted⟩ := beginWrite_withinRead zs answers write first
      constructor
      · intro restored
        have same := (restored w' begun).1
        rw [counted] at same
        omega
      · rintro (inside | ⟨none, -⟩)
        · exact absurd write inside
        · exact absurd none first
  · rw [beginWrite_nested write]
    exact ⟨fun _ => .inl write, fun _ w' failed => by cases failed⟩

theorem beginRead_restored (sane : Sane w.zh) (selected : w.zh.res = true)
    (outside : w.zh.transNo = 0 →
      w.zh.transWNo = 0 ∧ heldOf w.zh.lockNormal = [] ∧ heldOf w.zh.lockShadow = [])
    (failed : beginRead answers w = .ok (.fail, w')) : Restored w w' := by
  by_cases first : w.zh.transNo = 0
  · obtain ⟨-, held⟩ := outside first
    obtain ⟨res, w'', begun, states, transWNo, -, -, fail⟩ :=
      beginRead_first answers sane selected first held
    rw [failed] at begun
    cases begun
    obtain ⟨transNo, idle, -⟩ := fail rfl
    obtain ⟨noNormal, noShadow⟩ := idle.heldOf
    refine ⟨transNo.trans first.symm, transWNo, ?_, ?_, ?_⟩
    · rw [noNormal, held.1]
    · rw [noShadow, held.2]
    · intro reg
      rw [states]
  · cases (beginRead_nested first failed).1

theorem traceless_iff (coherent : Coherent w.zh) :
    Traceless zs answers w rw ↔ Tidy zs answers w rw := by
  cases selection : zebraSelectDefaultDatabase zs answers.lockCreate w.zh with
  | error stop =>
    obtain ⟨-, unselected, named⟩ := zebraSelectDefaultDatabase_stop coherent.sane selection
    exact absurd (coherent.unselected unselected) named
  | ok selected =>
    obtain ⟨res, zh⟩ := selected
    have chosen := zebraSelectDefaultDatabase_chosen coherent.sane selection
    change (∀ w', _ → Restored w w') ↔ _
    rw [zebraBeginTrans_eq selection]
    simp only [← chosen.restored]
    unfold beginSelected Tidy
    dsimp only
    by_cases reached : zh.res = true
    swap
    · rw [if_pos reached]
      refine ⟨fun _ => .inl fun reachable => reached (chosen.res.mpr reachable), ?_⟩
      rintro - w' failed
      cases failed
      exact ⟨rfl, rfl, rfl, rfl, fun _ => rfl⟩
    rw [if_neg (not_not.mpr reached), or_iff_right (not_not.mpr (chosen.res.mp reached))]
    have outside : zh.transNo = 0 →
        zh.transWNo = 0 ∧ heldOf zh.lockNormal = [] ∧ heldOf zh.lockShadow = [] := by
      rw [chosen.transNo, chosen.transWNo, chosen.normal, chosen.shadow]
      exact coherent.outside
    cases rw with
    | false =>
      refine ⟨fun _ => .inl rfl, fun _ w' failed => ?_⟩
      exact beginRead_restored (w := { w with zh }) chosen.sane reached outside failed
    | true =>
      rw [or_iff_right (Bool.noConfusion : ¬ true = false)]
      by_cases denied : mayNotWrite w.zh = true
      · rw [if_pos ⟨rfl, (mayNotWrite_chosen chosen).trans denied⟩]
        refine ⟨fun _ => .inl denied, ?_⟩
        rintro - w' failed
        cases failed
        exact ⟨rfl, rfl, rfl, rfl, fun _ => rfl⟩
      · have granted : ¬ (true = true ∧ mayNotWrite zh = true) := by
          rw [mayNotWrite_chosen chosen]
          exact fun lacking => denied lacking.2
        rw [if_neg granted, if_pos rfl, or_iff_right denied, ← chosen.regName reached,
          ← chosen.transNo, ← chosen.transWNo]
        exact beginWrite_restored (w := { w with zh }) chosen.sane reached outside

/-- A session in a run, with `depth` begins that are not yet ended. -/
structure InRun (depth : Nat) (zh : ZebraHandle) : Prop where
  sane : Sane zh
  count : zh.transNo = depth
  writes : zh.transWNo = 0 ∨ (zh.transWNo = 1 ∧ 0 < depth)
  outside : depth = 0 → heldOf zh.lockNormal = [] ∧ heldOf zh.lockShadow = []
  inside : 0 < depth →
    zh.res = true ∧ (∃ seqno lastVal, zh.reg = .opened seqno lastVal) ∧ Light zh

theorem InRun.noWrite (run : InRun 0 zh) : zh.transWNo = 0 :=
  run.writes.resolve_right fun inside => Nat.lt_irrefl 0 inside.2

variable {depth : Nat}

theorem InRun.setError (run : InRun depth zh) (code : ErrCode)
    (addinfo : Option String) : InRun depth (zebraSetError zh code addinfo) := by
  obtain ⟨⟨live, locks, unselected⟩, count, writes, outside, inside⟩ := run
  exact ⟨⟨live, locks, unselected⟩, count, writes, outside, inside⟩

theorem InRun.nested (run : InRun depth zh) (positive : 0 < depth) :
    InRun (depth + 1) { zh with transNo := zh.transNo + 1 } := by
  obtain ⟨⟨live, locks, unselected⟩, count, writes, outside, inside⟩ := run
  refine ⟨⟨live, locks, unselected⟩, ?_, ?_, fun none => absurd none (Nat.succ_ne_zero depth),
    fun _ => inside positive⟩
  · rw [count]
    rfl
  · exact writes.imp_right fun write => ⟨write.1, Nat.succ_pos depth⟩

theorem inRun_one (selected : zh.res = true) (count : zh.transNo = 1)
    (writes : zh.transWNo = 0 ∨ zh.transWNo = 1)
    (opened : ∃ seqno lastVal, zh.reg = .opened seqno lastVal) (light : Light zh) : InRun 1 zh := by
  obtain ⟨seqno, lastVal, open'⟩ := opened
  have has := light
  obtain ⟨normal, shadow, isNormal, isShadow, -⟩ := has
  refine ⟨⟨?_, ?_, ?_⟩, count, ?_, fun none => absurd none Nat.one_ne_zero,
    fun _ => ⟨selected, ⟨seqno, lastVal, open'⟩, light⟩⟩
  · rw [open']
    exact RegPtr.noConfusion
  · intro _
    rw [isNormal, isShadow]
    exact ⟨some_ne_none _, some_ne_none _⟩
  · intro unselected
    rw [selected] at unselected
    cases unselected
  · exact writes.imp_right fun write => ⟨write, Nat.one_pos⟩

theorem inRun_zero (selected : zh.res = true) (count : zh.transNo = 0) (noWrite : zh.transWNo = 0)
    (live : zh.reg ≠ .closed) (idle : Idle zh) : InRun 0 zh := by
  refine ⟨⟨live, ?_, ?_⟩, count, .inl noWrite, fun _ => idle.heldOf,
    fun positive => absurd positive (Nat.lt_irrefl 0)⟩
  · intro _
    rw [idle.normal, idle.shadow]
    exact ⟨some_ne_none _, some_ne_none _⟩
  · intro unselected
    rw [selected] at unselected
    cases unselected

theorem InRun.chosen (run : InRun depth w.zh)
    (selection : zebraSelectDefaultDatabase zs answers.lockCreate w.zh = .ok (res, zh)) :
    InRun depth zh := by
  have chosen := zebraSelectDefaultDatabase_chosen run.sane selection
  refine ⟨chosen.sane, chosen.transNo.trans run.count, ?_, ?_, ?_⟩
  · rw [chosen.transWNo]
    exact run.writes
  · rw [chosen.normal, chosen.shadow]
    exact run.outside
  · intro positive
    have selected := (run.inside positive).1
    unfold zebraSelectDefaultDatabase at selection
    rw [if_pos selected] at selection
    cases selection
    exact run.inside positive

/-- A begin for writing outside of any transaction whose commit fails has no register to lose. -/
def Unharmed (zs : Service) (answers : Answers) (w : World) (rw : Bool) : Prop :=
  rw = true → w.zh.transNo = 0 → w.zh.reg ≠ .null →
    ¬ ((w.states (target zs w.zh)).1 ≠ 'o' ∧
      CommitFails zs answers (target zs w.zh) (w.states (target zs w.zh)).1)

def deeper (res : ZebraRes) (depth : Nat) : Nat :=
  match res with
  | .ok => depth + 1
  | .fail => depth

theorem InRun.beginWrite (run : InRun depth w.zh) (selected : w.zh.res = true)
    (notWithinRead : w.zh.transWNo ≠ 0 ∨ w.zh.transNo = 0)
    (unharmed : w.zh.transNo = 0 → w.zh.reg = .null ∨ (finishLast zs answers w).1 = .ok)
    (begun : beginWrite zs answers w = .ok (res, w')) : InRun (deeper res depth) w'.zh := by
  by_cases write : w.zh.transWNo = 0
  · have first := notWithinRead.resolve_left (not_not.mpr write)
    obtain rfl : depth = 0 := by
      have count := run.count
      omega
    obtain ⟨res', w'', begun', ok, fail⟩ :=
      beginWrite_first zs answers run.sane selected first write (run.outside rfl)
    rw [begun] at begun'
    cases begun'
    cases res with
    | ok =>
      obtain ⟨writing, -⟩ := ok rfl
      exact inRun_one (writing.res.trans selected) writing.transNo (.inr writing.transWNo)
        writing.reg writing.light
    | fail =>
      obtain ⟨back, -, null⟩ := fail rfl
      refine inRun_zero (back.res.trans selected) back.transNo back.transWNo ?_ back.idle
      rw [null (unharmed first)]
      exact RegPtr.noConfusion
  · rw [beginWrite_nested write] at begun
    cases begun
    exact run.nested (run.writes.resolve_left write).2

theorem InRun.beginRead (run : InRun depth w.zh) (selected : w.zh.res = true)
    (begun : beginRead answers w = .ok (res, w')) : InRun (deeper res depth) w'.zh := by
  cases depth with
  | zero =>
    have first : w.zh.transNo = 0 := run.count
    obtain ⟨res', w'', begun', -, transWNo, res'', ok, fail⟩ :=
      beginRead_first answers run.sane selected first (run.outside rfl)
    rw [begun] at begun'
    cases begun'
    cases res with
    | ok =>
      obtain ⟨transNo, opened, light⟩ := ok rfl
      exact inRun_one res'' transNo (.inl (transWNo.trans run.noWrite)) opened light
    | fail =>
      obtain ⟨transNo, idle, null⟩ := fail rfl
      refine inRun_zero res'' transNo (transWNo.trans run.noWrite) ?_ idle
      rw [null]
      exact RegPtr.noConfusion
  | succ depth =>
    have inside : w.zh.transNo ≠ 0 := by
      rw [run.count]
      exact Int.natCast_ne_zero.mpr (Nat.succ_ne_zero depth)
    obtain ⟨rfl, rfl⟩ := beginRead_nested inside begun
    exact run.nested (Nat.succ_pos depth)

theorem InRun.begins (run : InRun depth w.zh) (tidy : Tidy zs answers w rw)
    (unharmed : Unharmed zs answers w rw)
    (begun : zebraBeginTrans zs answers w rw = .ok (res, w')) : InRun (deeper res depth) w'.zh := by
  cases selection : zebraSelectDefaultDatabase zs answers.lockCreate w.zh with
  | error stop =>
    unfold zebraBeginTrans at begun
    rw [selection] at begun
    cases begun
  | ok selected =>
    obtain ⟨res', zh⟩ := selected
    have chosen := zebraSelectDefaultDatabase_chosen run.sane selection
    have run' : InRun depth zh := run.chosen selection
    rw [zebraBeginTrans_eq selection] at begun
    unfold beginSelected at begun
    dsimp only at begun
    split at begun
    · cases begun
      exact run'.setError _ _
    rename_i reached
    have reached : zh.res = true := not_not.mp reached
    split at begun
    · cases begun
      exact run'.setError _ _
    rename_i granted
    split at begun
    · rename_i writing
      subst writing
      have permitted : ¬ mayNotWrite w.zh = true := by
        rw [← mayNotWrite_chosen chosen]
        exact fun denied => granted ⟨rfl, denied⟩
      have place := ((tidy.resolve_left (not_not.mpr (chosen.res.mp reached))).resolve_left
        Bool.noConfusion).resolve_left permitted
      refine InRun.beginWrite (w := { w with zh }) run' reached ?_ ?_ begun
      · rw [chosen.transNo, chosen.transWNo]
        exact place.imp_right And.left
      · intro first
        rw [chosen.transNo] at first
        by_cases null : w.zh.reg = .null
        · exact .inl (chosen.reg.trans null)
        · have fine := unharmed rfl first null
          rw [← chosen.regName reached] at fine
          refine .inr ?_
          cases finished : (finishLast zs answers { w with zh }).1 with
          | ok => rfl
          | fail => exact absurd (finishLast_fail.mp finished) fine
    · exact InRun.beginRead (w := { w with zh }) run' reached begun

theorem InRun.stops (run : InRun depth w.zh) {stop : Stop}
    (stopped : zebraBeginTrans zs answers w rw = .error stop) : stop = .assertion := by
  cases selection : zebraSelectDefaultDatabase zs answers.lockCreate w.zh with
  | error stop' =>
    unfold zebraBeginTrans at stopped
    rw [selection] at stopped
    cases stopped
    exact (zebraSelectDefaultDatabase_stop run.sane selection).1
  | ok selected =>
    obtain ⟨res', zh⟩ := selected
    have run' : InRun depth zh := run.chosen selection
    rw [zebraBeginTrans_eq selection] at stopped
    unfold beginSelected at stopped
    dsimp only at stopped
    split at stopped
    · cases stopped
    rename_i reached
    have reached : zh.res = true := not_not.mp reached
    split at stopped
    · cases stopped
    split at stopped
    · by_cases write : zh.transWNo = 0
      · by_cases first : zh.transNo = 0
        · obtain rfl : depth = 0 := by
            have count := run'.count
            omega
          obtain ⟨res, w', begun, -⟩ := beginWrite_first (w := { w with zh }) zs answers run'.sane
            reached first write (run'.outside rfl)
          rw [begun] at stopped
          cases stopped
        · obtain ⟨w', begun, -⟩ :=
            beginWrite_withinRead (w := { w with zh }) zs answers write first
          rw [begun] at stopped
          cases stopped
      · rw [beginWrite_nested (w := { w with zh }) write] at stopped
        cases stopped
    · cases depth with
      | zero =>
        obtain ⟨res, w', begun, -⟩ := beginRead_first (w := { w with zh }) answers run'.sane
          reached run'.count (run'.outside rfl)
        rw [begun] at stopped
        cases stopped
      | succ depth =>
        obtain ⟨-, ⟨seqno, lastVal, opened⟩, -⟩ := run'.inside (Nat.succ_pos depth)
        have nested : zh.transNo + 1 ≠ 1 := by
          have count := run'.count
          push_cast at count
          omega
        unfold Api.beginRead at stopped
        simp [nested, zebraFlushReg, opened, Except.map] at stopped

/-- The transaction of a session is closed and its locks are released. -/
structure Closed (zh : ZebraHandle) : Prop where
  transNo : zh.transNo = 0
  transWNo : zh.transWNo = 0
  normal : heldOf zh.lockNormal = []
  shadow : heldOf zh.lockShadow = []

theorem InRun.endInner (zs : Service) (run : InRun (depth + 2) w.zh) :
    ∃ w', zebraEndTransaction zs w = .ok (.ok, w') ∧ InRun (depth + 1) w'.zh := by
  obtain ⟨selected, ⟨seqno, lastVal, opened⟩, light⟩ := run.inside (Nat.succ_pos _)
  have count := run.count
  have writes := run.writes
  push_cast at count
  have noFail : ¬ (¬ w.zh.res = true ∨ w.zh.reg = .null) := by
    rw [opened]
    simp [selected]
  have inner : w.zh.transNo ≠ w.zh.transWNo := by omega
  have more : w.zh.transNo - 1 ≠ 0 := by omega
  unfold zebraEndTransaction
  rw [if_neg noFail, if_pos inner]
  dsimp only
  rw [if_pos more]
  refine ⟨_, rfl, ⟨run.sane.live, run.sane.locks, run.sane.unselected⟩, ?_, ?_,
    fun none => absurd none (Nat.succ_ne_zero depth), fun _ => ⟨selected, ⟨_, _, opened⟩, light⟩⟩
  · push_cast
    omega
  · exact writes.imp_right fun write => ⟨write.1, Nat.succ_pos depth⟩

/-- The end of the outermost begin closes the transaction; a write transaction leaves the state
`o`. -/
theorem InRun.endOutermost (zs : Service) (run : InRun 1 w.zh) :
    ∃ w', zebraEndTransaction zs w = .ok (.ok, w') ∧ InRun 0 w'.zh ∧ Closed w'.zh ∧
      (w.zh.transWNo = 1 → w'.zh.reg = .null ∧ (w'.states w.zh.regName).1 = 'o') := by
  obtain ⟨selected, ⟨seqno, lastVal, opened⟩, light⟩ := run.inside Nat.one_pos
  have count : w.zh.transNo = 1 := run.count
  have noFail : ¬ (¬ w.zh.res = true ∨ w.zh.reg = .null) := by
    rw [opened]
    simp [selected]
  have live : w.zh.reg ≠ .closed := run.sane.live
  unfold zebraEndTransaction
  rw [if_neg noFail]
  rcases run.writes with noWrite | write
  · have reading : w.zh.transNo ≠ w.zh.transWNo := by omega
    have last : ¬ w.zh.transNo - 1 ≠ 0 := by omega
    have light' : Light { w.zh with transNo := w.zh.transNo - 1 } := light
    obtain ⟨-, -, -, -, unlocked⟩ := light'.unlock
    rw [if_pos reading]
    dsimp only
    rw [if_neg last, unlocked]
    refine ⟨_, rfl, inRun_zero selected ?_ noWrite live ⟨rfl, rfl⟩, ⟨?_, noWrite, rfl, rfl⟩, ?_⟩
    · dsimp only
      omega
    · dsimp only
      omega
    · intro write
      omega
  · have writing : ¬ w.zh.transNo ≠ w.zh.transWNo := by omega
    have flushed : zebraFlushReg (uncount w.zh) = .ok .ok := by
      simp [zebraFlushReg, uncount, opened]
    have closed := closeRegister_ok (uncount w.zh) live
    have light' : Light { uncount w.zh with reg := .null } := light
    obtain ⟨-, -, -, -, unlocked⟩ := light'.unlock
    rw [if_neg writing]
    unfold endWrite
    simp only [bind, Except.bind, pure, Except.pure, flushed, closed, zebraSetState, unlocked]
    refine ⟨_, rfl, inRun_zero selected ?_ rfl RegPtr.noConfusion ⟨rfl, rfl⟩,
      ⟨?_, rfl, rfl, rfl⟩, fun _ => ⟨rfl, ?_⟩⟩
    · simp [uncount, count]
    · simp [uncount, count]
    · simp [uncount]

/-- Runs of begins and ends of a session, from one without a transaction, in which only successful
begins are ended; with the number of begins that are not yet ended. -/
inductive TransRun (zs : Service) : Nat → World → Prop where
  | start {w : World} : Coherent w.zh → w.zh.transNo = 0 → TransRun zs 0 w
  | begins {depth : Nat} {answers : Answers} {w w' : World} {rw : Bool} {res : ZebraRes} :
      TransRun zs depth w → Tidy zs answers w rw → Unharmed zs answers w rw →
      zebraBeginTrans zs answers w rw = .ok (res, w') → TransRun zs (deeper res depth) w'
  | ends {depth : Nat} {w w' : World} {res : ZebraRes} : TransRun zs (depth + 1) w →
      zebraEndTransaction zs w = .ok (res, w') → TransRun zs depth w'

theorem TransRun.inRun (run : TransRun zs depth w) : InRun depth w.zh := by
  induction run with
  | start coherent none =>
    obtain ⟨noWrite, held⟩ := coherent.outside none
    exact ⟨coherent.sane, none, .inl noWrite, fun _ => held,
      fun positive => absurd positive (Nat.lt_irrefl 0)⟩
  | begins _ tidy unharmed begun ih => exact ih.begins tidy unharmed begun
  | @ends depth w w' res _ ended ih =>
    cases depth with
    | zero =>
      obtain ⟨after, ended', run, -⟩ := InRun.endOutermost zs ih
      rw [ended] at ended'
      cases ended'
      exact run
    | succ depth =>
      obtain ⟨after, ended', run⟩ := InRun.endInner zs ih
      rw [ended] at ended'
      cases ended'
      exact run

/-- A failed begin leaves no trace exactly where it is tidy, and where all begins are (and none
whose commit fails has a register open), the counter is the number of begins that are not yet ended
and the outermost end closes the transaction and releases the locks. -/
theorem begin_traceless (zs : Service) :
    (∀ (answers : Answers) (w : World) (rw : Bool), Coherent w.zh →
      (Traceless zs answers w rw ↔ Tidy zs answers w rw)) ∧
    (∀ (depth : Nat) (w : World), TransRun zs depth w →
      w.zh.transNo = depth ∧ (depth = 0 → Closed w.zh) ∧
        (depth = 1 → ∃ w', zebraEndTransaction zs w = .ok (.ok, w') ∧ Closed w'.zh) ∧
        ∀ answers rw stop, zebraBeginTrans zs answers w rw = .error stop → stop = .assertion) := by
  refine ⟨fun _ _ _ coherent => traceless_iff coherent,
    fun depth w run => ⟨run.inRun.count, ?_, ?_, fun _ _ _ => run.inRun.stops⟩⟩
  · rintro rfl
    obtain ⟨noNormal, noShadow⟩ := run.inRun.outside rfl
    exact ⟨run.inRun.count, run.inRun.noWrite, noNormal, noShadow⟩
  · rintro rfl
    obtain ⟨w', ended, -, closed, -⟩ := InRun.endOutermost zs run.inRun
    exact ⟨w', ended, closed⟩

/-- A service with a session that has a transaction for reading. -/
def reading : World where
  zh := { zebraOpen with
    res := true
    reg := .opened 0 (some 'o')
    basenames := ["Default".toList]
    transNo := 1
    lockNormal := some ⟨[.read]⟩
    lockShadow := some ⟨[]⟩ }
  states := fun _ => ('o', 0)

/-- Answers where everything is there and no shadow has been written. -/
def fine : Answers where
  lockCreate := fun _ => true
  registerOpen := true
  bfsCreate := true
  commitExists := false
  commitExec := true

theorem coherent_reading : Coherent reading.zh where
  sane := ⟨RegPtr.noConfusion, fun _ => ⟨some_ne_none _, some_ne_none _⟩,
    fun unselected => Bool.noConfusion unselected⟩
  unselected := fun unselected => Bool.noConfusion unselected
  outside := fun none => absurd none (by decide)

/-- A service with a session without a transaction, and the state letter of an update that was
broken off. -/
def brokenOff : World where
  zh := { zebraOpen with
    res := true
    basenames := ["Default".toList]
    lockNormal := some ⟨[]⟩
    lockShadow := some ⟨[]⟩ }
  states := fun _ => ('d', 0)

theorem coherent_brokenOff : Coherent brokenOff.zh where
  sane := ⟨RegPtr.noConfusion, fun _ => ⟨some_ne_none _, some_ne_none _⟩,
    fun unselected => Bool.noConfusion unselected⟩
  unselected := fun unselected => Bool.noConfusion unselected
  outside := fun _ => ⟨rfl, rfl, rfl⟩

/-- The register of `brokenOff` cannot be opened. -/
theorem begin_traceless_broken_off :
    (∃ w', zebraBeginTrans Service.bare { fine with registerOpen := false } brokenOff true =
      .ok (.fail, w')) ∧
    Traceless Service.bare { fine with registerOpen := false } brokenOff true := by
  refine ⟨⟨_, rfl⟩,
    ((begin_traceless Service.bare).1 { fine with registerOpen := false } brokenOff true
      coherent_brokenOff).mpr (.inr (.inr (.inr (.inr ⟨rfl, ?_, fun _ => .inr rfl⟩))))⟩
  rintro ⟨-, shadow, -⟩
  exact absurd rfl shadow

/-- A begin for writing within a transaction for reading. -/
theorem not_begin_traceless :
    ¬ ∀ (zs : Service) (answers : Answers) (w : World) (rw : Bool), Coherent w.zh →
      Traceless zs answers w rw := by
  intro traceless
  obtain ⟨count, -⟩ := traceless Service.bare fine reading true coherent_reading _ rfl
  cases count

end Zebra.Api
