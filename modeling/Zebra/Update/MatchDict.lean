import Zebra.Update.Conservation

/-!
# The match dictionary and the record store

A record that is inserted under a match string has an entry in the match dictionary until it is
deleted.  Only a delete that names its record by the match string takes the entry out.
-/

namespace Zebra.Update

open Function Option Finset

variable {zh : ZebraHandle} {reg : Register} {req : Request} {w w' : World} {sysno : Nat}
  {matchStr : Option (List Byte)} {action : Action}

/-- How a request finds a record: by its number, or by an entry of the match dictionary. -/
theorem plan_change (planned : plan zh reg req = .change sysno matchStr action) :
    req.sysno = some sysno ∧ matchStr = none ∨
      req.sysno = none ∧ ∃ m, matchStr = some m ∧ reg.matchDict m = some sysno := by
  rw [plan] at planned
  split at planned
  · cases planned
  · cases planned
  · cases planned
  · cases planned
  · split at planned
    · cases string_eq : Update.matchStr zh (streamKeys reg req) req with
      | none =>
        rw [string_eq] at planned
        cases planned
      | some found =>
        rw [string_eq, elim_some, planFor] at planned
        split at planned
        · split at planned <;> cases planned
        · rename_i nonzero
          split at planned
          · cases planned
          · cases planned
            cases number : req.sysno with
            | some number =>
              left
              rw [Update.matchStr, number, isSome_some, if_pos rfl] at string_eq
              exact ⟨rfl, (Option.some.inj string_eq).symm⟩
            | none =>
              right
              refine ⟨rfl, ?_⟩
              simp only [number, getD_none] at nonzero ⊢
              cases matchStr with
              | none => exact absurd rfl nonzero
              | some m =>
                refine ⟨m, rfl, ?_⟩
                simp only [bind_some] at nonzero ⊢
                cases entry : reg.matchDict m with
                | none =>
                  rw [entry] at nonzero
                  exact absurd rfl nonzero
                | some found => rfl
    · cases planned

/-- Entries of the match dictionary are those of live records, under the string that each was last
inserted under; what a match string finds is there. -/
def MatchAgrees (zh : ZebraHandle) (w : World) : Prop :=
  (∀ m sysno, w.reg.matchDict m = some sysno →
    sysno ∈ w.lives.live ∧ w.lives.matched m = some sysno) ∧
  ∀ req sysno matchStr action, req.sysno = none →
    plan zh w.reg req = .change sysno matchStr action →
      (∃ m, matchStr = some m ∧ w.lives.matched m = some sysno) ∧
        (w.reg.records.get zh.infoSize sysno).1.isSome

/-- A request that names a record by its number names a live one, and a delete by number is not for
a record that has an entry in the match dictionary. -/
def NumberOk (zh : ZebraHandle) (w : World) (req : Request) : Prop :=
  ∀ sysno matchStr action, req.sysno = some sysno →
    plan zh w.reg req = .change sysno matchStr action →
      sysno ∈ w.lives.live ∧
        ((action = .delete ∨ action = .aDelete) → ∀ m, w.reg.matchDict m ≠ some sysno)

/-- The entries are those of the lives, and a record has at most one. -/
structure Indexed (w : World) : Prop where
  same : w.reg.matchDict = w.lives.matched
  live : ∀ m sysno, w.reg.matchDict m = some sysno → sysno ∈ w.lives.live
  unique : ∀ m m' sysno, w.reg.matchDict m = some sysno → w.reg.matchDict m' = some sysno → m = m'

theorem indexed_step (indexed : Indexed w) (number_ok : NumberOk zh w req)
    (effect : Effect zh w req w') : Indexed w' := by
  cases effect with
  | idle lives matchDict zei keyBlock custom =>
    refine ⟨?_, ?_, ?_⟩
    · rw [matchDict, lives]
      exact indexed.same
    · rw [matchDict, lives]
      exact indexed.live
    · rw [matchDict]
      exact indexed.unique
  | updated sysno matchStr action version e planned is_update stream is_live version_eq lives
      keyBlock zei matchDict custom =>
      refine ⟨?_, ?_, ?_⟩
      · rw [matchDict, lives]
        exact indexed.same
      · rw [matchDict, lives]
        exact indexed.live
      · rw [matchDict]
        exact indexed.unique
  | added sysno matchStr version e planned stream fresh pos sysno_eq version_eq lives keyBlock zei
      matchDict custom =>
      have still_live {other : Nat} (mem : other ∈ w.lives.live) : other ∈ w'.lives.live := by
        rw [lives]
        exact mem_insert_of_mem mem
      cases matchStr with
      | none =>
        refine ⟨?_, ?_, ?_⟩
        · rw [matchDict, lives]
          exact indexed.same
        · rw [matchDict]
          exact fun m other entry => still_live (indexed.live m other entry)
        · rw [matchDict]
          exact indexed.unique
      | some string =>
        -- the number is new, so no other entry has it
        have own {m : List Byte} (entry : w.reg.matchDict m = some sysno) : False :=
          fresh (indexed.live m sysno entry)
        refine ⟨?_, fun m other entry => ?_, fun m m' other entry entry' => ?_⟩
        · rw [matchDict, lives]
          simp only [elim_some, Lives.apply, indexed.same]
        · rw [matchDict, elim_some] at entry
          by_cases same : m = string
          · subst same
            rw [update_self] at entry
            cases entry
            rw [lives]
            exact mem_insert_self _ _
          · rw [update_of_ne same] at entry
            exact still_live (indexed.live m other entry)
        · rw [matchDict, elim_some] at entry entry'
          by_cases same : m = string <;> by_cases same' : m' = string
          · exact same.trans same'.symm
          · subst same
            rw [update_self] at entry
            rw [update_of_ne same'] at entry'
            cases entry
            exact (own entry').elim
          · subst same'
            rw [update_self] at entry'
            rw [update_of_ne same] at entry
            cases entry'
            exact (own entry).elim
          · rw [update_of_ne same] at entry
            rw [update_of_ne same'] at entry'
            exact indexed.unique m m' other entry entry'
  | deleted sysno matchStr action planned is_delete is_live lives keyBlock zei matchDict custom =>
    -- the entry of the record, if it has one, is the one taken out
    have left_out (m : List Byte) :
        w'.reg.matchDict m = if w.reg.matchDict m =
          some sysno then none else w.reg.matchDict m := by
      rcases plan_change planned with ⟨number, rfl⟩ | ⟨-, string, rfl, entry⟩
      · have absent := (number_ok sysno none action number planned).2 is_delete m
        rw [matchDict, if_neg absent]
        rfl
      · rw [matchDict, elim_some]
        by_cases same : m = string
        · subst same
          rw [update_self, if_pos entry]
        · have absent : w.reg.matchDict m ≠ some sysno := fun entry' =>
            same (indexed.unique m string sysno entry' entry)
          rw [update_of_ne same, if_neg absent]
    have kept {m : List Byte} {other : Nat} (entry : w'.reg.matchDict m = some other) :
        w.reg.matchDict m = some other ∧ other ≠ sysno := by
      rw [left_out] at entry
      split at entry
      · cases entry
      · rename_i absent
        exact ⟨entry, fun same => absent (same ▸ entry)⟩
    refine ⟨funext fun m => ?_, fun m other entry => ?_, fun m m' other entry entry' => ?_⟩
    · rw [left_out, lives, indexed.same]
      rfl
    · rw [lives]
      exact mem_erase.mpr ⟨(kept entry).2, indexed.live m other (kept entry).1⟩
    · exact indexed.unique m m' other (kept entry).1 (kept entry').1

theorem findsLive_of_indexed (stores : zh.storeKeys = true) (indexed : Indexed w)
    (number_ok : NumberOk zh w req) : FindsLive zh w req := by
  intro sysno matchStr action planned
  refine ⟨?_, stores⟩
  rcases plan_change planned with ⟨number, -⟩ | ⟨-, m, -, entry⟩
  · exact (number_ok sysno matchStr action number planned).1
  · exact indexed.live m sysno entry

/-- In every run whose requests meet the condition the match dictionary agrees with the record
store. -/
theorem match_dictionary_agrees (zh : ZebraHandle) (stores : zh.storeKeys = true) (w : World)
    (run : Reaches zh (NumberOk zh) w) : MatchAgrees zh w := by
  obtain ⟨tracks, indexed⟩ : Tracks zh w ∧ Indexed w :=
    Reaches.induct (fun w req _ indexed number_ok => findsLive_of_indexed stores indexed number_ok)
      (fun _ _ _ => ⟨rfl, fun _ _ entry => (by cases entry), fun _ _ _ entry _ => (by cases entry)⟩)
      (fun w req w' _ indexed number_ok effect _ => indexed_step indexed number_ok effect)
      (fun w _ indexed => ⟨indexed.same, indexed.live, indexed.unique⟩) run
  refine ⟨fun m sysno entry => ⟨indexed.live m sysno entry, indexed.same ▸ entry⟩,
    fun req sysno matchStr action no_number planned => ?_⟩
  rcases plan_change planned with ⟨number, -⟩ | ⟨-, m, rfl, entry⟩
  · rw [no_number] at number
    cases number
  · obtain ⟨records', get_eq, -⟩ := get_live tracks (indexed.live m sysno entry)
    refine ⟨⟨m, rfl, indexed.same ▸ entry⟩, ?_⟩
    rw [get_eq]
    rfl

/-- Insert a record under the match string `m`. -/
def insertMatched : Request where
  action := .update
  sysno := none
  matchCriteria := [109]
  fname := []
  stream := some oneKey
  streamless := nofun

/-- Delete the record of the match string `m`. -/
def deleteMatched : Request where
  action := .delete
  sysno := none
  matchCriteria := [109]
  fname := []
  stream := some oneKey
  streamless := nofun

theorem numberOk_matched {w : World} {req : Request} (without : req.sysno = none) :
    NumberOk plainHandle w req := by
  intro sysno matchStr action number
  cases without.symm.trans number

theorem match_dictionary_agrees_one : ∃ w, Reaches plainHandle (NumberOk plainHandle) w ∧
    w.reg.matchDict [109] = some 2 ∧ MatchAgrees plainHandle w := by
  have start : Reaches plainHandle (NumberOk plainHandle) (World.empty 1 0) :=
    .empty 1 0 (by decide)
  have inserted := Reaches.request insertMatched start (numberOk_matched rfl) rfl
  have updated := Reaches.request insertMatched inserted (numberOk_matched rfl) rfl
  have deleted := Reaches.request deleteMatched updated (numberOk_matched rfl) rfl
  have again := Reaches.request insertMatched deleted (numberOk_matched rfl) rfl
  exact ⟨_, again.reopen, rfl, match_dictionary_agrees plainHandle rfl _ again.reopen⟩

/-- A delete by number leaves the entry of the match string behind. -/
theorem match_entry_left : ∃ zh w, zh.storeKeys = true ∧
    Reaches zh (fun _ _ => True) w ∧ ¬MatchAgrees zh w := by
  have start : Reaches plainHandle (fun _ _ => True) (World.empty 1 0) := .empty 1 0 (by decide)
  have inserted := Reaches.request insertMatched start trivial rfl
  have deleted := Reaches.request (deleteByNumber 1) inserted trivial rfl
  refine ⟨plainHandle, _, rfl, deleted, fun agrees => ?_⟩
  have live := (agrees.1 [109] 1 rfl).1
  revert live
  decide

end Zebra.Update
