import Zebra.Api.Select

/-!
# Failed selections

A call that fails is to leave the databases and the register of the session as they were.  It does
where it fails before the names are kept, and where the names are those it had; any other failure
leaves the names of the request, with the old register or with one that cannot be used.
-/

namespace Zebra.Api

open Option

variable {zs : Service} {lockCreate : Str → Bool} {zh zh' : ZebraHandle} {basenames : List Str}
  {newReg : Str}

theorem strrchr_le {c : Char} {s : Str} {n : Nat} (found : strrchr c s = some n) :
    n ≤ s.length := by
  induction s generalizing n with
  | nil => simp [strrchr] at found
  | cons a s ih =>
    rw [strrchr] at found
    split at found
    · rename_i before later
      cases found
      exact Nat.succ_le_succ (ih later)
    · split at found
      · cases found
        exact Nat.zero_le _
      · cases found

variable {first : Str}

theorem sameReg_iff {name : Str} :
    sameReg (strrchr '/' first) (regOf first) name = true ↔ regPart name = regPart first := by
  unfold sameReg regOf regPart
  cases cp : strrchr '/' first with
  | none => cases cp1 : strrchr '/' name <;> simp
  | some len =>
    cases cp1 : strrchr '/' name with
    | none => simp
    | some len' =>
      simp only [map_some, getD_some, decide_eq_true_eq, some.injEq]
      constructor
      · rintro ⟨rfl, same⟩
        exact same
      · intro same
        have lengths := congrArg List.length same
        rw [List.length_take, List.length_take, Nat.min_eq_left (strrchr_le cp1),
          Nat.min_eq_left (strrchr_le cp)] at lengths
        subst lengths
        exact ⟨rfl, same⟩

def OneRegister (basenames : List Str) : Prop :=
  ∀ first ∈ basenames.head?, ∀ name ∈ basenames, regPart name = regPart first

instance (basenames : List Str) : Decidable (OneRegister basenames) :=
  inferInstanceAs (Decidable (∀ first ∈ basenames.head?, ∀ name ∈ basenames, _))

variable {others : List Str}

theorem oneRegister_cons :
    OneRegister (first :: others) ↔
      others.all (sameReg (strrchr '/' first) (regOf first)) = true := by
  simp [OneRegister, sameReg_iff]

/-- The databases of the session are of its register. -/
def Belong (zh : ZebraHandle) : Prop := ∀ name ∈ zh.basenames, regOf name = zh.regName

/-- A session as `zebra_open` and the calls that succeed leave it. -/
structure Settled (zh : ZebraHandle) : Prop where
  belong : Belong zh
  locks : zh.res = true → zh.lockNormal ≠ none ∧ zh.lockShadow ≠ none
  unselected : zh.res = false → zh.reg = .null ∧ zh.regName = []
  live : zh.reg ≠ .closed

theorem settled_open : Settled zebraOpen where
  belong := fun _ mem => absurd mem List.not_mem_nil
  locks := fun selected => Bool.noConfusion selected
  unselected := fun _ => ⟨rfl, rfl⟩
  live := RegPtr.noConfusion

/-- The register has a place and its lock files can be opened. -/
def Creatable (zs : Service) (lockCreate : Str → Bool) (newReg : Str) : Prop :=
  (zs.pathRoot ≠ none ∨ newReg = []) ∧
    lockCreate ("norm.".toList ++ newReg ++ ".LCK".toList) = true ∧
    lockCreate ("shadow.".toList ++ newReg ++ ".LCK".toList) = true

instance (zs : Service) (lockCreate : Str → Bool) (newReg : Str) :
    Decidable (Creatable zs lockCreate newReg) :=
  inferInstanceAs (Decidable ((_ ∨ _) ∧ _ ∧ _))

/-- The register is the one that the session has, or one that can be opened. -/
def Available (zs : Service) (lockCreate : Str → Bool) (zh : ZebraHandle) (newReg : Str) : Prop :=
  (zh.res = true ∧ zh.regName = newReg) ∨ Creatable zs lockCreate newReg

/-- What a session has of a register after `zebra_select_register`. -/
structure Selected (newReg : Str) (basenames : List Str) (zh' : ZebraHandle) : Prop where
  basenames : zh'.basenames = basenames
  regName : zh'.regName = newReg
  locks : zh'.res = true → zh'.lockNormal ≠ none ∧ zh'.lockShadow ≠ none
  unselected : zh'.res = false → zh'.reg = .null
  live : zh'.reg ≠ .closed

theorem createLocks_selected (lockCreate : Str → Bool) (zh : ZebraHandle)
    (closed : zh.reg = .null) :
    Selected zh.regName zh.basenames (createLocks lockCreate zh) := by
  have live : zh.reg ≠ .closed := fun same => RegPtr.noConfusion (closed.symm.trans same)
  unfold createLocks
  split
  · split
    · exact ⟨rfl, rfl, fun _ => ⟨some_ne_none _, some_ne_none _⟩, fun _ => closed, live⟩
    · exact ⟨rfl, rfl, fun selected => Bool.noConfusion selected, fun _ => closed, live⟩
  · rename_i without
    exact ⟨rfl, rfl, fun selected => absurd selected without, fun _ => closed, live⟩

theorem createLocks_res :
    (createLocks lockCreate zh).res = true ↔
      zh.res = true ∧ lockCreate ("norm.".toList ++ zh.regName ++ ".LCK".toList) = true ∧
        lockCreate ("shadow.".toList ++ zh.regName ++ ".LCK".toList) = true := by
  unfold createLocks
  split
  · rename_i placed
    split
    · rename_i created
      exact ⟨fun _ => ⟨placed, created⟩, fun _ => placed⟩
    · rename_i failed
      exact ⟨fun selected => Bool.noConfusion selected, fun available => absurd available.2 failed⟩
  · rename_i unplaced
    exact ⟨fun selected => absurd selected unplaced, fun available => absurd available.1 unplaced⟩

theorem openRegister_selected (zs : Service) (lockCreate : Str → Bool) (newReg : Str)
    (zh : ZebraHandle) (closed : zh.reg = .null) :
    Selected newReg zh.basenames (openRegister zs lockCreate zh newReg) := by
  obtain ⟨basenames, regName, locks, unselected, live⟩ := createLocks_selected lockCreate
    { zebraOpenRes { zh with
        regName := newReg
        pathReg := zs.pathRoot.map fun root => if newReg = [] then root else root ++ '/' :: newReg }
      with lockNormal := none, lockShadow := none } closed
  exact ⟨basenames, regName, locks, unselected, live⟩

theorem openRegister_res :
    (openRegister zs lockCreate zh newReg).res = true ↔ Creatable zs lockCreate newReg := by
  unfold openRegister Creatable
  rw [createLocks_res]
  simp [zebraOpenRes, isSome_iff_ne_none]

theorem closeRegister_ok (zh : ZebraHandle) (live : zh.reg ≠ .closed) :
    closeRegister zh = .ok { zh with reg := .null } := by
  unfold closeRegister
  split
  · rename_i null
    rw [← null]
  · rename_i closed
    exact absurd closed live
  · rfl

/-- From a settled session `zebra_select_register` returns, with resources if the register is
available. -/
theorem zebraSelectRegister_ok (zs : Service) (lockCreate : Str → Bool) (settled : Settled zh)
    (basenames : List Str) (newReg : Str) :
    ∃ zh', zebraSelectRegister zs lockCreate { zh with basenames } newReg = .ok zh' ∧
      Selected newReg basenames zh' ∧
      (zh'.res = true ↔ Available zs lockCreate zh newReg) := by
  unfold zebraSelectRegister
  dsimp only
  split
  · rename_i same
    refine ⟨_, rfl, ⟨rfl, same.2, settled.locks, ?_, settled.live⟩, ?_⟩
    · intro unselected
      exact (settled.unselected unselected).1
    · exact ⟨fun _ => .inl same, fun _ => same.1⟩
  · rename_i other
    have available : Available zs lockCreate zh newReg ↔ _ := or_iff_right other
    rw [available]
    split
    · rw [closeRegister_ok { zh with basenames, errCode := .none } settled.live]
      obtain ⟨names, regName, locks, unselected, live⟩ := openRegister_selected zs lockCreate newReg
        (zebraCloseRes { zh with basenames, errCode := .none, reg := .null }) rfl
      exact ⟨_, rfl, ⟨names, regName, locks, unselected, live⟩, openRegister_res⟩
    · rename_i without
      have unselected := settled.unselected (Bool.eq_false_iff.mpr without)
      rw [if_pos unselected]
      obtain ⟨names, regName, locks, unselected, live⟩ := openRegister_selected zs lockCreate newReg
        { zh with basenames, errCode := .none } unselected.1
      exact ⟨_, rfl, ⟨names, regName, locks, unselected, live⟩, openRegister_res⟩

theorem checkSelected_of_locks
    (locks : zh.res = true → zh.lockNormal ≠ none ∧ zh.lockShadow ≠ none) :
    checkSelected zh =
      if zh.res then (.ok, zh) else (.fail, { zh with errCode := .databaseUnavailable }) := by
  unfold checkSelected
  by_cases selected : zh.res = true
  · have present := locks selected
    simp [selected, present]
  · simp [selected]

/-- A request that is refused before its names are looked at. -/
def Refused (zh : ZebraHandle) (basenames : List Str) : Prop :=
  basenames = [] ∨ accessDenied zh.dbaccesslist basenames = true

def Served (zs : Service) (lockCreate : Str → Bool) (zh : ZebraHandle)
    (basenames : List Str) : Prop :=
  OneRegister basenames ∧ ∀ first ∈ basenames.head?, Available zs lockCreate zh (regOf first)

theorem select_refused (zs : Service) (lockCreate : Str → Bool) (refused : Refused zh basenames) :
    ∃ code, zebraSelectDatabases zs lockCreate zh basenames =
      .ok (.fail, { zh with errCode := code }) := by
  cases basenames with
  | nil => exact ⟨_, rfl⟩
  | cons first others =>
    rcases refused with none | denied
    · cases none
    · refine ⟨.accessToSpecifiedDatabaseDenied, ?_⟩
      rw [zebraSelectDatabases]
      exact if_pos denied

theorem select_mixed (zs : Service) (lockCreate : Str → Bool)
    (granted : ¬ Refused zh basenames) (mixed : ¬ OneRegister basenames) :
    ∃ code, zebraSelectDatabases zs lockCreate zh basenames =
      .ok (.fail, { zh with basenames, errCode := code }) := by
  cases basenames with
  | nil => exact absurd (.inl rfl) granted
  | cons first others =>
    refine ⟨.combiOfSpecifiedDatabasesUnsupp, ?_⟩
    rw [zebraSelectDatabases]
    dsimp only
    rw [if_neg fun denied => granted (.inr denied),
      if_neg fun same => mixed (oneRegister_cons.mpr same)]

theorem select_one (zs : Service) (lockCreate : Str → Bool) (settled : Settled zh)
    (granted : ¬ Refused zh (first :: others))
    (one : OneRegister (first :: others)) :
    ∃ res zh', zebraSelectDatabases zs lockCreate zh (first :: others) = .ok (res, zh') ∧
      Selected (regOf first) (first :: others) zh' ∧
      (zh'.res = true ↔ Available zs lockCreate zh (regOf first)) ∧
      (res = .ok ↔ Available zs lockCreate zh (regOf first)) := by
  obtain ⟨zh', returned, selected, available⟩ :=
    zebraSelectRegister_ok zs lockCreate settled (first :: others) (regOf first)
  have checked : zebraSelectDatabases zs lockCreate zh (first :: others) =
      .ok (checkSelected zh') := by
    rw [zebraSelectDatabases]
    dsimp only
    rw [if_neg fun denied => granted (.inr denied), if_pos (oneRegister_cons.mp one)]
    exact map_eq_ok.mpr ⟨zh', returned, rfl⟩
  rw [checked, checkSelected_of_locks selected.locks]
  by_cases open' : zh'.res = true
  · rw [if_pos open']
    exact ⟨.ok, zh', rfl, selected, available, fun _ => available.mp open', fun _ => rfl⟩
  · rw [if_neg open']
    refine ⟨.fail, _, rfl, ⟨selected.basenames, selected.regName, selected.locks,
      selected.unselected, selected.live⟩, available, ?_⟩
    rw [← available]
    exact ⟨fun ok => ZebraRes.noConfusion ok, fun opened => absurd opened open'⟩

/-- If the call fails, the session has the databases and the register it had, and they belong
together. -/
def Atomic (zs : Service) (lockCreate : Str → Bool) (zh : ZebraHandle)
    (basenames : List Str) : Prop :=
  ∀ zh', zebraSelectDatabases zs lockCreate zh basenames = .ok (.fail, zh') →
    zh'.basenames = zh.basenames ∧ zh'.regName = zh.regName ∧ Belong zh'

/-- The request is refused at once, or it is served, or it is for the databases of the session. -/
def Orderly (zs : Service) (lockCreate : Str → Bool) (zh : ZebraHandle) (basenames : List Str) :
    Prop :=
  Refused zh basenames ∨ Served zs lockCreate zh basenames ∨ basenames = zh.basenames

theorem OneRegister.regOf (one : OneRegister (first :: others))
    {name : Str} (mem : name ∈ first :: others) : regOf name = regOf first := by
  rw [Api.regOf, Api.regOf, one first rfl name mem]

theorem served_cons (one : OneRegister (first :: others))
    (available : Available zs lockCreate zh (regOf first)) :
    Served zs lockCreate zh (first :: others) := by
  refine ⟨one, ?_⟩
  intro name head
  cases head
  exact available

/-- What a call leaves of a settled session, where it is orderly. -/
theorem select_orderly (settled : Settled zh) (orderly : Orderly zs lockCreate zh basenames) :
    ∃ res zh', zebraSelectDatabases zs lockCreate zh basenames = .ok (res, zh') ∧ Settled zh' ∧
      zh'.basenames = (if res = .ok then basenames else zh.basenames) ∧
      (res = .fail → zh'.regName = zh.regName) := by
  by_cases refused : Refused zh basenames
  · obtain ⟨code, failed⟩ := select_refused zs lockCreate refused
    exact ⟨_, _, failed, ⟨settled.belong, settled.locks, settled.unselected, settled.live⟩, rfl,
      fun _ => rfl⟩
  have orderly := orderly.resolve_left refused
  cases basenames with
  | nil => exact absurd (.inl rfl) refused
  | cons first others =>
    by_cases one : OneRegister (first :: others)
    · obtain ⟨res, zh', returned, selected, opened, succeeded⟩ :=
        select_one zs lockCreate settled refused one
      by_cases available : Available zs lockCreate zh (Api.regOf first)
      · have ok := succeeded.mpr available
        have res' := opened.mpr available
        refine ⟨res, zh', returned, ⟨?_, selected.locks, ?_, selected.live⟩, ?_, ?_⟩
        · intro name mem
          rw [selected.basenames] at mem
          rw [selected.regName, one.regOf mem]
        · intro unselected
          rw [res'] at unselected
          cases unselected
        · rw [if_pos ok, selected.basenames]
        · intro failed
          rw [ok] at failed
          cases failed
      · have same := orderly.resolve_left fun served => available (served.2 first rfl)
        have failed : res ≠ .ok := fun ok => available (succeeded.mp ok)
        have regName : Api.regOf first = zh.regName :=
          settled.belong first (same ▸ List.mem_cons_self)
        have unselected : zh.res = false :=
          Bool.eq_false_iff.mpr fun selected => available (.inl ⟨selected, regName.symm⟩)
        refine ⟨res, zh', returned, ⟨?_, selected.locks, ?_, selected.live⟩, ?_, ?_⟩
        · intro name mem
          rw [selected.basenames] at mem
          rw [selected.regName, one.regOf mem]
        · intro closed
          exact ⟨selected.unselected closed,
            (selected.regName.trans regName).trans (settled.unselected unselected).2⟩
        · rw [if_neg failed, selected.basenames, same]
        · intro _
          rw [selected.regName, regName]
    · obtain ⟨code, failed⟩ := select_mixed zs lockCreate refused one
      have same := orderly.resolve_left fun served => one served.1
      refine ⟨_, _, failed, ⟨?_, settled.locks, settled.unselected, settled.live⟩, same,
        fun _ => rfl⟩
      intro name mem
      exact settled.belong name (same ▸ mem)

theorem Atomic.of_orderly (settled : Settled zh) (orderly : Orderly zs lockCreate zh basenames) :
    Atomic zs lockCreate zh basenames := by
  obtain ⟨res, zh', returned, settled', names, regName⟩ := select_orderly settled orderly
  intro after failed
  rw [returned] at failed
  cases failed
  exact ⟨names, regName rfl, settled'.belong⟩

theorem Atomic.orderly (settled : Settled zh) (atomic : Atomic zs lockCreate zh basenames) :
    Orderly zs lockCreate zh basenames := by
  by_contra disorderly
  have refused : ¬ Refused zh basenames := fun refused => disorderly (.inl refused)
  have differ : basenames ≠ zh.basenames := fun same => disorderly (.inr (.inr same))
  cases basenames with
  | nil => exact refused (.inl rfl)
  | cons first others =>
    by_cases one : OneRegister (first :: others)
    · obtain ⟨res, zh', returned, selected, -, succeeded⟩ :=
        select_one zs lockCreate settled refused one
      cases res with
      | ok => exact disorderly (.inr (.inl (served_cons one (succeeded.mp rfl))))
      | fail => exact differ (selected.basenames ▸ (atomic zh' returned).1)
    · obtain ⟨code, failed⟩ := select_mixed zs lockCreate refused one
      exact differ (atomic _ failed).1

/-- What other calls change of a session: neither the selection nor whether there are resources and
locks. -/
structure Elsewhere (zh zh' : ZebraHandle) : Prop where
  basenames : zh'.basenames = zh.basenames
  regName : zh'.regName = zh.regName
  res : zh'.res = zh.res
  lockNormal : zh'.lockNormal = none ↔ zh.lockNormal = none
  lockShadow : zh'.lockShadow = none ↔ zh.lockShadow = none
  reg : zh'.reg ≠ .closed
  unselected : zh'.res = false → zh'.reg = .null

theorem Settled.elsewhere (settled : Settled zh) (other : Elsewhere zh zh') : Settled zh' where
  belong := by
    intro name mem
    rw [other.basenames] at mem
    rw [other.regName]
    exact settled.belong name mem
  locks := by
    intro selected
    rw [other.res] at selected
    exact ⟨fun missing => (settled.locks selected).1 (other.lockNormal.mp missing),
      fun missing => (settled.locks selected).2 (other.lockShadow.mp missing)⟩
  unselected := by
    intro without
    refine ⟨other.unselected without, ?_⟩
    rw [other.res] at without
    rw [other.regName]
    exact (settled.unselected without).2
  live := other.reg

/-- Runs of a session whose requests are orderly, with the databases selected last with success. -/
inductive SelectRun (zs : Service) : ZebraHandle → List Str → Prop where
  | start : SelectRun zs zebraOpen []
  | select {lockCreate : Str → Bool} {zh zh' : ZebraHandle} {last basenames : List Str}
      {res : ZebraRes} : SelectRun zs zh last → Orderly zs lockCreate zh basenames →
      zebraSelectDatabases zs lockCreate zh basenames = .ok (res, zh') →
      SelectRun zs zh' (if res = .ok then basenames else last)
  | other {zh zh' : ZebraHandle} {last : List Str} : SelectRun zs zh last → Elsewhere zh zh' →
      SelectRun zs zh' last

theorem SelectRun.settled {last : List Str} (run : SelectRun zs zh last) :
    Settled zh ∧ zh.basenames = last := by
  induction run with
  | start => exact ⟨settled_open, rfl⟩
  | select _ orderly returned ih =>
    obtain ⟨settled, names⟩ := ih
    obtain ⟨res', zh'', returned', settled', names', -⟩ := select_orderly settled orderly
    rw [returned] at returned'
    cases returned'
    rw [names] at names'
    exact ⟨settled', names'⟩
  | other _ other ih => exact ⟨ih.1.elsewhere other, other.basenames.trans ih.2⟩

/-- A call is atomic exactly where it is orderly, and where all calls are, the session has the
databases selected last with success and their register. -/
theorem select_atomic (zs : Service) :
    (∀ (lockCreate : Str → Bool) (zh : ZebraHandle) (basenames : List Str), Settled zh →
      (Atomic zs lockCreate zh basenames ↔ Orderly zs lockCreate zh basenames)) ∧
    (∀ (zh : ZebraHandle) (last : List Str), SelectRun zs zh last →
      Settled zh ∧ zh.basenames = last) :=
  ⟨fun _ _ _ settled => ⟨Atomic.orderly settled, Atomic.of_orderly settled⟩,
    fun _ _ run => run.settled⟩

/-- A session that has selected the one database it may use. -/
def restricted : ZebraHandle := { zebraOpen with
  res := true
  dbaccesslist := some "Default".toList
  basenames := ["Default".toList]
  lockNormal := some ⟨[]⟩
  lockShadow := some ⟨[]⟩ }

theorem settled_restricted : Settled restricted where
  belong := by
    intro name mem
    cases List.mem_singleton.mp mem
    rfl
  locks := fun _ => ⟨Option.some_ne_none _, Option.some_ne_none _⟩
  unselected := fun selected => Bool.noConfusion selected
  live := RegPtr.noConfusion

theorem refused_restricted : Refused restricted ["Secret".toList] := by
  refine .inr ?_
  simp [accessDenied, restricted, scanAccessList, strchrAfter]

theorem select_atomic_refused :
    (∃ zh', zebraSelectDatabases Service.bare (fun _ => true) restricted ["Secret".toList] =
      .ok (.fail, zh')) ∧
    Atomic Service.bare (fun _ => true) restricted ["Secret".toList] := by
  obtain ⟨_, refused⟩ := select_refused Service.bare (fun _ => true) refused_restricted
  exact ⟨⟨_, refused⟩, ((select_atomic Service.bare).1 _ _ _ settled_restricted).mpr
    (.inl refused_restricted)⟩

/-- A request for databases of two registers leaves their names with the register there was. -/
theorem not_select_atomic :
    ¬ ∀ (zs : Service) (lockCreate : Str → Bool) (zh : ZebraHandle) (basenames : List Str),
      Settled zh → Atomic zs lockCreate zh basenames := by
  intro atomic
  obtain ⟨names, -⟩ := atomic Service.bare (fun _ => true) zebraOpen
    ["one/Default".toList, "two/Default".toList] settled_open _ rfl
  cases names

end Zebra.Api
