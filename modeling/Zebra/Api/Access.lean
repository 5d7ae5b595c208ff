import Zebra.Api.Select

/-!
# Access to databases

The elements of an access list are what is between its plus signs.  The scan of the list fails at a
null pointer only, and a list that is empty or ends in a plus sign gives it none.
-/

namespace Zebra.Api

open List

def listElements (list : Str) : List Str := list.splitOn '+'

/-- Whether the scan of a list can end without an element found and with a null pointer. -/
def Refuses (list : Str) : Prop := list ≠ [] ∧ list.getLast? ≠ some '+'

instance (list : Str) : Decidable (Refuses list) := inferInstanceAs (Decidable (_ ∧ _))

theorem listElements_single {p : Str} (free : '+' ∉ p) : listElements p = [p] :=
  splitOn_eq_singleton free

theorem listElements_append {element pp : Str} (free : '+' ∉ element) :
    listElements (element ++ '+' :: pp) = element :: listElements pp :=
  splitOn_append_cons_self_of_not_mem free pp

theorem refuses_single {p : Str} (nonempty : p ≠ []) (free : '+' ∉ p) : Refuses p :=
  ⟨nonempty, fun last => free (mem_of_getLast? last)⟩

theorem refuses_append {element pp : Str} : Refuses (element ++ '+' :: pp) ↔ Refuses pp := by
  cases pp with
  | nil => simp [Refuses]
  | cons c pp => simp [Refuses, getLast?_append]

/-- The scan ends with a null pointer if the name is not in the list and the list refuses. -/
theorem scanAccessList_none {db list : Str} :
    scanAccessList db list = none ↔ Refuses list ∧ db ∉ listElements list := by
  fun_induction scanAccessList db list with
  | case1 => simp [Refuses]
  | case2 nonempty found =>
    have free : '+' ∉ db := strchrAfter_none.mp found
    simp [listElements_single free]
  | case3 p nonempty found other =>
    have free : '+' ∉ p := strchrAfter_none.mp found
    simp [listElements_single free, refuses_single nonempty free, Ne.symm other]
  | case4 p nonempty len pp found same =>
    obtain ⟨parts, free⟩ := strchrAfter_some found
    rw [parts, listElements_append free, ← same.2]
    simp
  | case5 p nonempty len pp found other ih =>
    obtain ⟨parts, free⟩ := strchrAfter_some found
    have differ : db ≠ p.take len := by
      intro same
      have bound : len ≤ p.length := by
        have total := congrArg length parts
        rw [length_append, length_take, length_cons] at total
        omega
      exact other ⟨by rw [same, length_take, Nat.min_eq_left bound], same⟩
    rw [ih]
    conv_rhs => rw [parts]
    rw [refuses_append, listElements_append free, mem_cons]
    simp [differ]

theorem accessDenied_some {list : Str} {basenames : List Str} :
    accessDenied (some list) basenames = true ↔
      Refuses list ∧ ∃ db ∈ basenames, db ∉ listElements list := by
  simp only [accessDenied, any_eq_true, Option.isNone_iff_eq_none, scanAccessList_none]
  constructor
  · rintro ⟨db, mem, refuses, missing⟩
    exact ⟨refuses, db, mem, missing⟩
  · rintro ⟨refuses, db, mem, missing⟩
    exact ⟨db, mem, refuses, missing⟩

theorem checkSelected_fail {zh zh' : ZebraHandle} (failed : checkSelected zh = (.fail, zh')) :
    zh'.errCode = .databaseUnavailable ∨ zh'.errCode = .temporarySystemError := by
  simp only [checkSelected] at failed
  split at failed
  · cases failed
    exact .inl rfl
  · split at failed
    · cases failed
      exact .inr rfl
    · cases failed

/-- `zebra_select_databases` fails with the error for databases that are not accessible. -/
def Denies (zs : Service) (lockCreate : Str → Bool) (zh : ZebraHandle) (basenames : List Str) :
    Prop :=
  ∃ zh', zebraSelectDatabases zs lockCreate zh basenames = .ok (.fail, zh') ∧
    zh'.errCode = .accessToSpecifiedDatabaseDenied

theorem denies_iff {zs : Service} {lockCreate : Str → Bool} {zh : ZebraHandle}
    {basenames : List Str} :
    Denies zs lockCreate zh basenames ↔
      basenames ≠ [] ∧ accessDenied zh.dbaccesslist basenames = true := by
  unfold Denies
  rw [zebraSelectDatabases.eq_def]
  cases basenames with
  | nil =>
    refine ⟨?_, fun denied => absurd rfl denied.1⟩
    rintro ⟨zh', failed, code⟩
    cases failed
    cases code
  | cons first others =>
    dsimp only
    split
    · rename_i denied
      exact ⟨fun _ => ⟨cons_ne_nil _ _, denied⟩, fun _ => ⟨_, rfl, rfl⟩⟩
    · rename_i granted
      refine ⟨?_, fun denied => absurd denied.2 granted⟩
      rintro ⟨zh', failed, code⟩
      split at failed
      · obtain ⟨selected, -, failed⟩ := map_eq_ok.mp failed
        rcases checkSelected_fail failed with unavailable | missing
        · rw [unavailable] at code
          cases code
        · rw [missing] at code
          cases code
      · cases failed
        cases code

/-- Access is denied exactly to names that are not in the list, if and only if the list is not empty
and does not end in a plus sign, or there are no such names. -/
theorem denies_missing_iff (zs : Service) (lockCreate : Str → Bool) (zh : ZebraHandle) (list : Str)
    (basenames : List Str) :
    (Denies zs lockCreate { zh with dbaccesslist := some list } basenames ↔
        ∃ db ∈ basenames, db ∉ listElements list) ↔
      Refuses list ∨ ∀ db ∈ basenames, db ∈ listElements list := by
  rw [denies_iff, accessDenied_some]
  by_cases refuses : Refuses list
  · simp only [refuses, true_and, true_or, iff_true, and_iff_right_iff_imp]
    rintro ⟨db, mem, -⟩
    exact List.ne_nil_of_mem mem
  · simp only [refuses, false_and, and_false, false_or, false_iff, not_exists, not_and, not_not]

theorem not_denies_missing :
    ¬ ∀ (zs : Service) (lockCreate : Str → Bool) (zh : ZebraHandle) (list : Str)
        (basenames : List Str), basenames ≠ [] →
      (Denies zs lockCreate { zh with dbaccesslist := some list } basenames ↔
        ∃ db ∈ basenames, db ∉ listElements list) := by
  intro exact
  have denied := (exact Service.bare (fun _ => true) zebraOpen "Default+".toList ["Secret".toList]
    (List.cons_ne_nil _ _)).mpr ⟨_, List.mem_singleton_self _, by decide⟩
  have refuses := (accessDenied_some.mp (denies_iff.mp denied).2).1
  revert refuses
  decide

end Zebra.Api
