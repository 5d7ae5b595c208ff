import Zebra.Dict.Delete

/-!
# What the search on a page finds

The entries of a page are in order, so that the search finds an entry that it may stop at.  Entries
that it does not stop at have no key with the string in front.
-/

namespace Zebra.Dict

open List Option

variable {α ι : Type} [LinearOrder α]

theorem not_lt_of_prefix {str info : List α} (front : str <+: info) : ¬ info < str := by
  induction str generalizing info with
  | nil => exact not_lt_nil _
  | cons c str induction =>
    obtain ⟨tail, rfl⟩ := front
    rw [cons_append, cons_lt_cons_iff]
    rintro (lower | ⟨-, lower⟩)
    · exact lt_irrefl c lower
    · exact induction (prefix_append str tail) lower

/-- Strings between a string and one that it is a prefix of begin with it. -/
theorem prefix_of_between {str info info' : List α} (above : ¬ info < str) (lower : info < info')
    (front : str <+: info') : str <+: info := by
  induction str generalizing info info' with
  | nil => exact nil_prefix
  | cons c str induction =>
    obtain ⟨tail', rfl⟩ := front
    cases info with
    | nil => exact absurd (nil_lt_cons _ _) above
    | cons d info =>
      rw [cons_lt_cons_iff, not_or] at above
      rw [cons_append, cons_lt_cons_iff] at lower
      obtain first | ⟨rfl, rest⟩ := lower
      · exact absurd first above.1
      · rw [cons_prefix_cons]
        refine ⟨rfl, induction (fun less => above.2 ⟨rfl, less⟩) rest ?_⟩
        exact prefix_append str tail'

omit [LinearOrder α] in
theorem head_of_start {c : α} {str info : List α} (front : (c :: str) <+: info) :
    info.head? = some c := by
  obtain ⟨tail, rfl⟩ := front
  rfl

/-- A string that is not less than another begins no earlier. -/
theorem head_not_lt {c d : α} {str info : List α} (above : ¬ info < c :: str)
    (head : info.head? = some d) : ¬ d < c := by
  intro lower
  cases info with
  | nil => cases head
  | cons e info =>
    obtain rfl := some.inj head
    exact above (cons_lt_cons_iff.mpr (Or.inl lower))

/-- A string that is less than another begins no later. -/
theorem head_le {c d : α} {str info : List α} (lower : info < c :: str)
    (head : info.head? = some d) : d ≤ c := by
  cases info with
  | nil => cases head
  | cons e info =>
    obtain rfl := some.inj head
    obtain first | ⟨rfl, -⟩ := cons_lt_cons_iff.mp lower
    · exact first.le
    · exact le_rfl

theorem Entry.Before.parted {c : α} {str : List α} {entry entry' : Entry α ι}
    (before : entry.Before entry') :
    BinarySearch.Parted (hits true (c :: str)) (less (c :: str)) entry entry' := by
  cases entry with
  | tail info _ =>
    cases entry' with
    | tail info' _ =>
      simp only [BinarySearch.Parted, hits, less, if_true, decide_eq_false_iff_not,
        decide_eq_true_eq]
      refine ⟨fun miss above front => miss (prefix_of_between above before front), ?_⟩
      exact fun _ lower front => not_lt_of_prefix front (List.lt_trans before lower)
    | sub _ dc _ =>
      simp only [BinarySearch.Parted, hits, less, if_true, decide_eq_false_iff_not,
        decide_eq_true_eq, head?_cons, elim_some, some.injEq]
      refine ⟨?_, ?_⟩
      · rintro miss above rfl
        cases info with
        | nil => exact above (nil_lt_cons _ _)
        | cons d info => exact head_not_lt above rfl (before d rfl)
      · intro _ lower front
        exact lt_asymm lower (before c (head_of_start front))
  | sub _ dc _ =>
    cases entry' with
    | tail info' _ =>
      obtain ⟨d, head, lower⟩ := before
      simp only [BinarySearch.Parted, hits, less, if_true, decide_eq_false_iff_not,
        decide_eq_true_eq, head?_cons, elim_some, some.injEq]
      refine ⟨?_, ?_⟩
      · intro _ above front
        obtain rfl := some.inj ((head_of_start front).symm.trans head)
        exact above lower
      · rintro _ less' rfl
        exact lt_irrefl c (lt_of_lt_of_le lower (head_le less' head))
    | sub _ dc' _ =>
      have lower : dc < dc' := before
      simp only [BinarySearch.Parted, hits, less, decide_eq_false_iff_not,
        decide_eq_true_eq, head?_cons, elim_some, some.injEq]
      refine ⟨?_, ?_⟩
      · rintro _ above rfl
        exact above lower
      · rintro _ less' rfl
        exact lt_asymm less' lower

def Entry.isSub : Entry α ι → Bool
  | .tail _ _ => false
  | .sub _ _ _ => true

/-- A character is in strings or in one entry with a sub page. -/
theorem Entry.Before.apart {entry entry' : Entry α ι} (before : entry.Before entry') {c : α}
    {str : List α} (hit : hits true (c :: str) entry = true)
    (hit' : hits true (c :: str) entry' = true) : entry.isSub = false ∧ entry'.isSub = false := by
  cases entry with
  | tail info _ =>
    cases entry' with
    | tail info' _ => exact ⟨rfl, rfl⟩
    | sub _ dc _ =>
      simp only [hits, if_true, decide_eq_true_eq, head?_cons, some.injEq] at hit hit'
      exact absurd (before c (head_of_start hit)) (hit' ▸ lt_irrefl c)
  | sub _ dc _ =>
    simp only [hits, decide_eq_true_eq, head?_cons, some.injEq] at hit
    subst hit
    cases entry' with
    | tail info' _ =>
      simp only [hits, if_true, decide_eq_true_eq] at hit'
      obtain ⟨d, head, lower⟩ := before
      obtain rfl := some.inj ((head_of_start hit').symm.trans head)
      exact absurd lower (lt_irrefl _)
    | sub _ dc' _ =>
      simp only [hits, decide_eq_true_eq, head?_cons, some.injEq] at hit'
      subst hit'
      exact absurd before (lt_irrefl c)

def Entry.info : Entry α ι → List ι
  | .tail _ info => info
  | .sub _ _ info => info

omit [LinearOrder α] in
theorem exists_split {entries : List (Entry α ι)} {mid : Nat} {entry : Entry α ι}
    (at_mid : entries[mid]? = some entry) :
    ∃ front back, entries = front ++ entry :: back ∧ front.length = mid := by
  induction entries generalizing mid with
  | nil => cases at_mid
  | cons first entries induction =>
    cases mid with
    | zero =>
      obtain rfl := some.inj at_mid
      exact ⟨[], entries, rfl, rfl⟩
    | succ mid =>
      obtain ⟨front, back, rfl, rfl⟩ := induction at_mid
      exact ⟨first :: front, back, rfl, rfl⟩

/-- What the loop does to a page: either it deletes the strings it may stop at, or it stops at the
entry with a sub page and has deleted nothing. -/
inductive LookResult (str : List α) (page : Page α ι) (looked : Looked α ι) : Prop
  | strings (found : looked.found = none)
      (kept : looked.page.entries = page.entries.filter fun entry => !hits true str entry)
      (calls : looked.calls.Perm ((page.entries.filter (hits true str)).map Entry.info))
      (tails : ∀ entry ∈ page.entries, hits true str entry = true → entry.isSub = false)
      (r_ne : looked.r ≠ 2)
  | stopped (front back : List (Entry α ι)) (subptr : Nat) (dc : α) (info : List ι)
      (entries : page.entries = front ++ .sub subptr dc info :: back) (head : str.head? = some dc)
      (looked_eq : looked =
        { page, calls := [], r := 0, found := some (front.length, subptr, dc, info) })

/-- What the search needs of the entries of a page. -/
structure Searchable (str : List α) (entries : List (Entry α ι)) : Prop where
  parted : entries.Pairwise (BinarySearch.Parted (hits true str) (less str))
  apart : entries.Pairwise fun entry entry' =>
    hits true str entry = true → hits true str entry' = true →
      entry.isSub = false ∧ entry'.isSub = false

theorem Searchable.of_before {c : α} {str : List α} {entries : List (Entry α ι)}
    (ordered : entries.Pairwise Entry.Before) : Searchable (c :: str) entries :=
  ⟨ordered.imp Entry.Before.parted, ordered.imp fun before => before.apart⟩

theorem Searchable.of_tails {entries : List (Entry α ι)}
    (tails : ∀ entry ∈ entries, entry.isSub = false) : Searchable [] entries := by
  have hit : ∀ entry ∈ entries, hits true [] entry = true := by
    intro entry mem
    cases entry with
    | tail info _ =>
      rw [hits, if_pos rfl]
      exact decide_eq_true nil_prefix
    | sub _ _ _ => exact absurd (tails _ mem) Bool.noConfusion
  refine ⟨pairwise_of_forall_mem_list fun x x_mem y y_mem => ⟨?_, ?_⟩,
    pairwise_of_forall_mem_list fun x x_mem y y_mem _ _ => ⟨tails x x_mem, tails y y_mem⟩⟩
  · intro miss
    exact absurd ((hit x x_mem).symm.trans miss) Bool.noConfusion
  · intro miss
    exact absurd ((hit y y_mem).symm.trans miss) Bool.noConfusion

theorem look_result {str : List α} {page : Page α ι} {fuel : Nat}
    (searchable : Searchable str page.entries) (enough : page.entries.length < fuel) :
    LookResult str page (look true str fuel page) := by
  induction fuel generalizing page with
  | zero => omega
  | succ fuel induction =>
    rw [look]
    dsimp only
    cases found : BinarySearch.search (hits true str) (less str) page.entries
        page.entries.length 0 page.entries.length with
    | none =>
      have miss : ∀ entry ∈ page.entries, hits true str entry = false := by
        intro entry mem
        obtain ⟨i, at_i⟩ := mem_iff_getElem?.mp mem
        exact BinarySearch.search_none searchable.parted (by omega) (Nat.le_refl _) found
          (Nat.zero_le i) (List.getElem?_eq_some_iff.mp at_i).1 at_i
      refine .strings rfl ?_ ?_ ?_ (show (0 : Nat) ≠ 2 by decide)
      · refine (filter_eq_self.mpr fun entry mem => ?_).symm
        rw [miss entry mem]
        rfl
      · rw [filter_eq_nil_iff.mpr fun entry mem => Bool.eq_false_iff.mp (miss entry mem)]
        exact List.Perm.refl _
      · intro entry mem hit
        exact absurd ((miss entry mem).symm.trans hit) Bool.noConfusion
    | some mid =>
      obtain ⟨entry, at_mid, hit⟩ := BinarySearch.search_some found
      dsimp only
      rw [at_mid]
      obtain ⟨front, back, entries_eq, rfl⟩ := exists_split at_mid
      cases entry with
      | sub subptr dc info =>
        refine .stopped front back subptr dc info entries_eq ?_ rfl
        exact of_decide_eq_true hit
      | tail string info =>
        dsimp only
        rw [if_pos rfl]
        have removed : page.entries.eraseIdx front.length = front ++ back := by
          rw [entries_eq, eraseIdx_append_of_length_le (Nat.le_refl _), Nat.sub_self,
            eraseIdx_cons_zero]
        have less_entries : (front ++ back).Sublist page.entries := by
          rw [entries_eq]
          exact (Sublist.refl front).append (sublist_cons_self _ _)
        have length_eq : page.entries.length = (front ++ back).length + 1 := by
          rw [entries_eq, length_append, length_append, length_cons]
          omega
        rw [removed]
        have rest := @induction { page with type := 1, entries := front ++ back }
          ⟨searchable.parted.sublist less_entries, searchable.apart.sublist less_entries⟩
          (by dsimp only; omega)
        cases rest with
        | strings none kept calls tails r_ne =>
          refine .strings none ?_ ?_ ?_ (show (1 : Nat) ≠ 2 by decide)
          · rw [kept, entries_eq, filter_append, filter_append,
              filter_cons_of_neg]
            rw [hit]
            exact Bool.noConfusion
          · rw [entries_eq, filter_append, filter_cons_of_pos hit, map_append,
              map_cons]
            refine (List.Perm.cons _ calls).trans ?_
            rw [filter_append, map_append]
            exact perm_middle.symm
          · intro entry mem hit_entry
            rw [entries_eq, mem_append, mem_cons] at mem
            obtain mem | rfl | mem := mem
            · exact tails entry (mem_append_left _ mem) hit_entry
            · rfl
            · exact tails entry (mem_append_right _ mem) hit_entry
        | stopped front' back' subptr dc info' entries_eq' head looked_eq =>
          have sub_hit : hits true str (.sub subptr dc info' : Entry α ι) = true :=
            decide_eq_true head
          have sub_mem : (.sub subptr dc info' : Entry α ι) ∈ front ++ back := by
            rw [show front ++ back = _ from entries_eq']
            exact mem_append_right _ mem_cons_self
          have apart := searchable.apart
          rw [entries_eq, pairwise_append, pairwise_cons] at apart
          obtain mem | mem := mem_append.mp sub_mem
          · exact absurd (apart.2.2 _ mem _ mem_cons_self sub_hit hit).1
              Bool.noConfusion
          · exact absurd (apart.2.1.1 _ mem hit sub_hit).2 Bool.noConfusion

end Zebra.Dict
