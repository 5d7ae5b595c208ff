import Mathlib.Data.List.Dedup
import Zebra.Index.SortIndex
import Zebra.Index.TempFiles

/-!
# Facets from sort indexes

`perform_facet_sort`, `term_collect_create` and `term_collect_freq`: the values of the records are
counted in a map, the most frequent ones are kept in an array in ascending order, and the array is
sorted for output.
-/

namespace Zebra.Facets

open List

open TempFile Sortidx

/-- The terms of a `zebra_strmap_t` with the numbers that belong to them -/
abbrev StrMap := List (List Byte × Nat)

/-- `zebra_strmap_lookup`, then either `(*freq)++` or `zebra_strmap_add` -/
def countValue (sm : StrMap) (str : List Byte) : StrMap :=
  if sm.any fun e => e.1 = str then sm.map fun e => if e.1 = str then (e.1, e.2 + 1) else e
  else (str, 1) :: sm

/-- The loop of `perform_facet_sort` over the bytes read, with the string at `off` as far as it has
been read; a string without its zero would be read past the end. -/
def countBytes : List Byte → List Byte → StrMap → Option StrMap
  | [], [], sm => some sm
  | [], _ :: _, _ => none
  | c :: bytes, str, sm =>
    if c = 0 then countBytes bytes [] (countValue sm str) else countBytes bytes (str ++ [c]) sm

abbrev Value := {value : List Byte // 0 ∉ value}

/-- A sort entry as it is stored, each value with a zero behind it -/
def stored (values : List (List Byte)) : List Byte := values.flatMap (· ++ [0])

/-- The loop of `perform_facet_sort` over the records, for one ordinal -/
def countRecords (files : SortFiles (List Value)) (ord : Nat) :
    List Nat → SortIndex → StrMap → Option (StrMap × SortIndex)
  | [], si, sm => some (sm, si)
  | sysno :: poset, si, sm =>
    if sysno = 0 then countRecords files ord poset si sm
    else
      let read := (si.sortSysno sysno).sortRead files ord
      match read.1 with
      | none => countRecords files ord poset read.2 sm
      | some values =>
        countBytes (stored (values.map Subtype.val)) [] sm >>= countRecords files ord poset read.2

/-- `perform_facet_sort`, which fills one map for each ordinal -/
def performFacetSort (files : SortFiles (List Value)) (poset : List Nat) :
    List Nat → SortIndex → Option (List StrMap × SortIndex)
  | [], si => some ([], si)
  | ord :: ordArray, si =>
    (countRecords files ord poset si []).bind fun counted =>
      (performFacetSort files poset ordArray counted.2).map fun others =>
        (counted.1 :: others.1, others.2)

structure TermCollect where
  term : Option (List Byte)
  oc : Nat
  setOccur : Nat
  deriving DecidableEq

/-- The loop `while (j < no_terms_collect && oc > col[j].oc)` -/
def place (oc : Nat) : List TermCollect → Nat
  | [] => 0
  | c :: col => if oc > c.oc then place oc col + 1 else 0

/-- One round over the terms: the entries below move down by one. -/
def collect (col : List TermCollect) (e : List Byte × Nat) : List TermCollect :=
  match place e.2 col with
  | 0 => col
  | j + 1 => (col.drop 1).take j ++ ⟨some e.1, e.2, 0⟩ :: col.drop (j + 1)

/-- `term_collect_create`, with the terms in the order of the iterator -/
def termCollectCreate (it : StrMap) (noTermsCollect : Nat) : List TermCollect :=
  it.foldl collect (replicate noTermsCollect ⟨none, 0, 0⟩)

def termQsortHandle (l r : TermCollect) : Int :=
  if l.setOccur < r.setOccur then 1
  else if l.setOccur > r.setOccur then -1
  else strcmp (l.term.getD []) (r.term.getD [])

/-- `term_collect_freq` with the scale factor 1 of sort indexes -/
def termCollectFreq (col : List TermCollect) : List TermCollect :=
  qsort termQsortHandle
    (col.map fun c => if c.term.isSome then { c with setOccur := 1 * c.oc } else c)

def listed (col : List TermCollect) : List (List Byte × Nat) :=
  col.filterMap fun c => c.term.map fun term => (term, c.setOccur)

/-- Each value seen has an entry with its number of occurrences. -/
structure Counts (sm : StrMap) (seen : List (List Byte)) : Prop where
  nodup : (sm.map Prod.fst).Nodup
  count : ∀ e ∈ sm, e.2 = seen.count e.1
  mem : ∀ value, value ∈ sm.map Prod.fst ↔ value ∈ seen

variable {sm : StrMap} {seen : List (List Byte)}

theorem Counts.countValue (counts : Counts sm seen) (str : List Byte) :
    Counts (countValue sm str) (seen ++ [str]) := by
  have known : (sm.any fun e => e.1 = str) = true ↔ str ∈ seen := by
    rw [any_eq_true, ← counts.mem, mem_map]
    simp only [decide_eq_true_eq]
  rw [Facets.countValue]
  split
  · next found =>
      have str_mem := known.mp found
      have keys : (sm.map fun e => if e.1 = str then (e.1, e.2 + 1) else e).map Prod.fst =
          sm.map Prod.fst := by
        rw [map_map]
        refine map_congr_left fun e _ => ?_
        dsimp only [Function.comp]
        split <;> rfl
      refine ⟨keys ▸ counts.nodup, fun e mem => ?_, fun value => ?_⟩
      · obtain ⟨old, old_mem, rfl⟩ := mem_map.mp mem
        have old_count := counts.count old old_mem
        split
        · next same =>
            rw [count_append, ← old_count, same, count_singleton_self]
        · next other =>
            rw [count_append, count_singleton, if_neg (by simpa using Ne.symm other),
              Nat.add_zero]
            exact old_count
      · rw [keys, counts.mem, mem_append, mem_singleton]
        exact ⟨.inl, fun mem => mem.elim id fun same => same ▸ str_mem⟩
  · next not_found =>
      have new : str ∉ seen := fun mem => not_found (known.mpr mem)
      refine ⟨?_, fun e mem => ?_, fun value => ?_⟩
      · rw [map_cons, nodup_cons, counts.mem]
        exact ⟨new, counts.nodup⟩
      · rcases mem_cons.mp mem with rfl | mem
        · rw [count_append, count_eq_zero.mpr new, count_singleton_self]
        · have ne : str ≠ e.1 := by
            intro same
            exact new ((counts.mem _).mp (same ▸ mem_map_of_mem mem))
          rw [count_append, count_singleton, if_neg (by simpa using ne), Nat.add_zero]
          exact counts.count e mem
      · rw [map_cons, mem_cons, counts.mem, mem_append, mem_singleton, or_comm]

theorem countBytes_value {value : List Byte} (str bytes : List Byte) (sm : StrMap)
    (no_zero : 0 ∉ value) :
    countBytes (value ++ 0 :: bytes) str sm =
      countBytes bytes [] (countValue sm (str ++ value)) := by
  induction value generalizing str with
  | nil => rw [nil_append, countBytes, if_pos rfl, append_nil]
  | cons c value ih =>
    rw [cons_append, countBytes, if_neg fun zero : c = 0 => no_zero (zero ▸ mem_cons_self),
      ih _ fun mem => no_zero (mem_cons_of_mem c mem), append_assoc]
    rfl

theorem countBytes_stored (counts : Counts sm seen) {values : List (List Byte)}
    (no_zero : ∀ value ∈ values, 0 ∉ value) :
    ∃ sm', countBytes (stored values) [] sm = some sm' ∧ Counts sm' (seen ++ values) := by
  induction values generalizing sm seen with
  | nil => exact ⟨sm, rfl, (append_nil seen).symm ▸ counts⟩
  | cons value values ih =>
    obtain ⟨sm', run, counts'⟩ := ih (counts.countValue value) fun value mem =>
      no_zero value (.tail _ mem)
    refine ⟨sm', ?_, by rwa [append_assoc] at counts'⟩
    rw [stored, flatMap_cons, append_assoc, singleton_append,
      countBytes_value _ _ _ (no_zero value mem_cons_self)]
    exact run

/-- What a record has is read: it has no values, or its entry is not in front of the position. -/
def Found (files : SortFiles (List Value)) (si : SortIndex) (ord : Nat) : Prop :=
  files.entry ord si.sysno = some [] ∨ si.Unpassed files ord

/-- The values of the records, each as often as it is there -/
def examined (files : SortFiles (List Value)) (ord : Nat) (poset : List Nat) : List (List Byte) :=
  poset.flatMap fun sysno =>
    if sysno = 0 then [] else ((files.entry ord sysno).getD []).map Subtype.val

/-- The values that are read, and the sort index behind the last record -/
def readValues (files : SortFiles (List Value)) (ord : Nat) :
    List Nat → SortIndex → List (List Byte) × SortIndex
  | [], si => ([], si)
  | sysno :: poset, si =>
    if sysno = 0 then readValues files ord poset si
    else
      let read := (si.sortSysno sysno).sortRead files ord
      let others := readValues files ord poset read.2
      ((read.1.getD []).map Subtype.val ++ others.1, others.2)

/-- In front of each record examined, what it has can be read. -/
def RecordsFound (files : SortFiles (List Value)) (ord : Nat) : List Nat → SortIndex → Prop
  | [], _ => True
  | sysno :: poset, si =>
    if sysno = 0 then RecordsFound files ord poset si
    else
      Found files (si.sortSysno sysno) ord ∧
        RecordsFound files ord poset ((si.sortSysno sysno).sortRead files ord).2

theorem countRecords_counts (files : SortFiles (List Value)) (ord : Nat) (poset : List Nat)
    (si : SortIndex) (counts : Counts sm seen) :
    ∃ sm', countRecords files ord poset si sm = some (sm', (readValues files ord poset si).2) ∧
      Counts sm' (seen ++ (readValues files ord poset si).1) := by
  induction poset generalizing si sm seen with
  | nil => exact ⟨sm, rfl, (append_nil seen).symm ▸ counts⟩
  | cons sysno poset ih =>
    rw [countRecords, readValues]
    by_cases zero : sysno = 0
    · rw [if_pos zero, if_pos zero]
      exact ih si counts
    · rw [if_neg zero, if_neg zero]
      dsimp only
      rw [← append_assoc]
      cases ((si.sortSysno sysno).sortRead files ord).1 with
      | none =>
        rw [Option.getD_none, map_nil, append_nil]
        exact ih _ counts
      | some values =>
        have no_zero : ∀ value ∈ values.map Subtype.val, 0 ∉ value := by
          intro value mem
          obtain ⟨v, -, rfl⟩ := mem_map.mp mem
          exact v.2
        obtain ⟨sm', run, counts'⟩ := countBytes_stored counts no_zero
        dsimp only [Option.getD_some]
        rw [run]
        exact ih _ counts'

variable {files : SortFiles (List Value)} {si : SortIndex} {ord : Nat}

/-- What is read of a record is what it has, or nothing at all. -/
theorem sortRead_found (found : Found files si ord) :
    (si.sortRead files ord).1.getD [] = (files.entry ord si.sysno).getD [] := by
  rcases found with empty | unpassed
  · rw [empty]
    by_cases unpassed : si.Unpassed files ord
    · rw [SortIndex.sortRead_unpassed unpassed, empty]
    · rw [(SortIndex.sortRead_passed unpassed).1]
      rfl
  · rw [SortIndex.sortRead_unpassed unpassed]

theorem sortRead_not_found (missed : ¬ Found files si ord) :
    (si.sortRead files ord).1.getD [] = [] ∧ (files.entry ord si.sysno).getD [] ≠ [] := by
  obtain ⟨some, passed⟩ := not_or.mp missed
  obtain ⟨nothing, entry⟩ := SortIndex.sortRead_passed passed
  refine ⟨by rw [nothing]; rfl, ?_⟩
  cases own : files.entry ord si.sysno with
  | none => exact absurd own entry
  | some values =>
    rintro rfl
    exact some own

/-- No more is read than is there, and all of it if and only if each record is found. -/
theorem readValues_le (files : SortFiles (List Value)) (ord : Nat) (poset : List Nat)
    (si : SortIndex) :
    (readValues files ord poset si).1.length ≤ (examined files ord poset).length ∧
      ((readValues files ord poset si).1.length = (examined files ord poset).length →
        RecordsFound files ord poset si) ∧
      (RecordsFound files ord poset si →
        (readValues files ord poset si).1 = examined files ord poset) := by
  induction poset generalizing si with
  | nil => exact ⟨le_rfl, fun _ => trivial, fun _ => rfl⟩
  | cons sysno poset ih =>
    rw [readValues, examined, flatMap_cons, ← examined, RecordsFound]
    by_cases zero : sysno = 0
    · rw [if_pos zero, if_pos zero, if_pos zero]
      exact ih si
    rw [if_neg zero, if_neg zero, if_neg zero]
    dsimp only
    obtain ⟨le, only, all⟩ := ih ((si.sortSysno sysno).sortRead files ord).2
    rw [length_append, length_append]
    by_cases found : Found files (si.sortSysno sysno) ord
    · have same := sortRead_found found
      rw [same]
      refine ⟨Nat.add_le_add_left le _, fun lengths => ⟨found, only (Nat.add_left_cancel lengths)⟩,
        fun both => ?_⟩
      rw [all both.2]
      rfl
    · obtain ⟨nothing, some⟩ := sortRead_not_found found
      have positive : 0 < (((files.entry ord sysno).getD []).map Subtype.val).length := by
        rw [length_map]
        exact length_pos_iff.mpr some
      rw [nothing, map_nil, length_nil, Nat.zero_add]
      refine ⟨le.trans (Nat.le_add_left _ _), fun lengths => ?_, fun both => absurd both.1 found⟩
      omega

def real (col : List TermCollect) : List (List Byte × Nat) :=
  col.filterMap fun c => c.term.map fun term => (term, c.oc)

theorem real_append (front back : List TermCollect) :
    real (front ++ back) = real front ++ real back :=
  filterMap_append

theorem real_cons (c : TermCollect) (col : List TermCollect) :
    real (c :: col) = (c.term.map fun term => (term, c.oc)).toList ++ real col := by
  rw [real, filterMap_cons]
  cases c.term <;> rfl

/-- The array has the most frequent ones of the terms so far, in ascending order. -/
structure Top (col : List TermCollect) (done omitted : List (List Byte × Nat)) : Prop where
  perm : (real col ++ omitted).Perm done
  ascending : col.Pairwise fun c c' => c.oc ≤ c'.oc
  below : ∀ e ∈ omitted, ∀ c ∈ col, e.2 ≤ c.oc
  unused : ∀ c ∈ col, c.term = none → c.oc = 0

theorem place_split (oc : Nat) (col : List TermCollect) :
    ∃ front back, col = front ++ back ∧ place oc col = front.length ∧ (∀ c ∈ front, c.oc < oc) ∧
      ∀ c back', back = c :: back' → oc ≤ c.oc := by
  induction col with
  | nil => exact ⟨[], [], rfl, rfl, fun _ mem => absurd mem not_mem_nil, fun _ _ eq => by cases eq⟩
  | cons c col ih =>
    rw [place]
    split
    · next above =>
        obtain ⟨front, back, rfl, length, lower, higher⟩ := ih
        exact ⟨c :: front, back, rfl, congrArg (· + 1) length,
          forall_mem_cons.mpr ⟨above, lower⟩, higher⟩
    · next not_above =>
        refine ⟨[], c :: col, rfl, rfl, fun _ mem => absurd mem not_mem_nil, ?_⟩
        rintro c' back' eq
        cases eq
        exact not_lt.mp not_above

/-- One term more: it is left out, or the least entry is. -/
theorem Top.collect {col : List TermCollect} {done omitted : List (List Byte × Nat)}
    (top : Top col done omitted) (e : List Byte × Nat) :
    ∃ omitted', Top (collect col e) (e :: done) omitted' ∧ (collect col e).length = col.length := by
  obtain ⟨front, back, rfl, place_eq, lower, higher⟩ := place_split e.2 col
  obtain ⟨front_ascending, back_ascending, across⟩ := pairwise_append.mp top.ascending
  have back_high : ∀ c ∈ back, e.2 ≤ c.oc := by
    intro c mem
    cases back with
    | nil => exact absurd mem not_mem_nil
    | cons first back =>
      have first_high := higher first back rfl
      rcases mem_cons.mp mem with rfl | mem
      · exact first_high
      · exact first_high.trans ((pairwise_cons.mp back_ascending).1 c mem)
  cases front with
  | nil =>
    rw [nil_append] at top place_eq ⊢
    have same : Facets.collect back e = back := by
      rw [Facets.collect, place_eq]
      rfl
    rw [same]
    refine ⟨e :: omitted, ⟨perm_middle.trans (top.perm.cons e), top.ascending, ?_, top.unused⟩,
      rfl⟩
    exact forall_mem_cons.mpr ⟨back_high, top.below⟩
  | cons least front =>
    have moved : Facets.collect (least :: front ++ back) e = front ++ ⟨some e.1, e.2,
        0⟩ :: back := by
      rw [Facets.collect, place_eq]
      dsimp only [length_cons]
      rw [cons_append, drop_succ_cons, drop_zero, take_left,
        drop_succ_cons, drop_left]
    have least_below : ∀ c ∈ front ++ ⟨some e.1, e.2, 0⟩ :: back, least.oc ≤ c.oc := by
      intro c mem
      have own := (forall_mem_cons.mp lower).1
      rcases mem_append.mp mem with mem | mem
      · exact (pairwise_cons.mp front_ascending).1 c mem
      · rcases mem_cons.mp mem with rfl | mem
        · exact own.le
        · exact own.le.trans (back_high c mem)
    have real_moved : (real (front ++ ⟨some e.1, e.2, 0⟩ :: back)).Perm
        (e :: real (front ++ back)) := by
      rw [real_append, real_cons, real_append]
      exact perm_middle
    have ascending : (front ++ ⟨some e.1, e.2, 0⟩ :: back).Pairwise fun c c' => c.oc ≤ c'.oc := by
      refine pairwise_append.mpr ⟨(pairwise_cons.mp front_ascending).2,
        pairwise_cons.mpr ⟨back_high, back_ascending⟩, fun c mem c' mem' => ?_⟩
      rcases mem_cons.mp mem' with rfl | mem'
      · exact ((forall_mem_cons.mp lower).2 c mem).le
      · exact across c (.tail _ mem) c' mem'
    have unused : ∀ c ∈ front ++ ⟨some e.1, e.2, 0⟩ :: back, c.term = none → c.oc = 0 := by
      intro c mem none
      rcases mem_append.mp mem with mem | mem
      · exact top.unused c (by simp [mem]) none
      · rcases mem_cons.mp mem with rfl | mem
        · cases none
        · exact top.unused c (by simp [mem]) none
    have old_below : ∀ old ∈ omitted, ∀ c ∈ front ++ ⟨some e.1, e.2, 0⟩ :: back, old.2 ≤ c.oc :=
      fun old mem c c_mem => (top.below old mem least mem_cons_self).trans (least_below c c_mem)
    have count : (front ++ (⟨some e.1, e.2, 0⟩ : TermCollect) :: back).length =
        (least :: front ++ back).length := by
      rw [length_append, length_append, length_cons, length_cons]
      omega
    have perm := top.perm
    rw [cons_append, real_cons] at perm
    rw [moved]
    cases least_term : least.term with
    | none =>
      rw [least_term] at perm
      exact ⟨omitted, ⟨(real_moved.append_right omitted).trans (perm.cons e), ascending, old_below,
        unused⟩, count⟩
    | some term =>
      rw [least_term] at perm
      refine ⟨(term, least.oc) :: omitted, ⟨?_, ascending,
        forall_mem_cons.mpr ⟨least_below, old_below⟩, unused⟩, count⟩
      exact (real_moved.append_right _).trans ((perm_middle.trans perm).cons e)

theorem foldl_collect (it : List (List Byte × Nat)) {col : List TermCollect}
    {done omitted : List (List Byte × Nat)} (top : Top col done omitted) :
    ∃ omitted', Top (it.foldl collect col) (it.reverse ++ done) omitted' ∧
      (it.foldl collect col).length = col.length := by
  induction it generalizing col done omitted with
  | nil => exact ⟨omitted, top, rfl⟩
  | cons e it ih =>
    obtain ⟨omitted', top', length⟩ := top.collect e
    obtain ⟨omitted'', top'', length'⟩ := ih top'
    refine ⟨omitted'', ?_, length'.trans length⟩
    rwa [reverse_cons, append_assoc]

/-- The array has the `noTermsCollect` most frequent terms, or all of them if there are fewer. -/
theorem termCollectCreate_top {it : StrMap} (positive : ∀ e ∈ it, 0 < e.2) (noTermsCollect : Nat) :
    ∃ omitted, Top (termCollectCreate it noTermsCollect) it omitted ∧
      (real (termCollectCreate it noTermsCollect)).length = min noTermsCollect it.length := by
  have start : Top (replicate noTermsCollect ⟨none, 0, 0⟩) [] [] := by
    refine ⟨?_, pairwise_replicate.mpr (.inr (le_refl _)), fun _ mem => absurd mem not_mem_nil,
      fun c mem _ => congrArg TermCollect.oc (eq_of_mem_replicate mem)⟩
    rw [append_nil, real, filterMap_eq_nil_iff.mpr]
    intro c mem
    rw [eq_of_mem_replicate mem]
    rfl
  obtain ⟨omitted, top, length⟩ := foldl_collect it start
  rw [← termCollectCreate] at top length
  rw [append_nil] at top
  rw [length_replicate] at length
  refine ⟨omitted, ⟨top.perm.trans it.reverse_perm, top.ascending, top.below, top.unused⟩, ?_⟩
  have count := top.perm.length_eq
  rw [length_append, length_reverse] at count
  have real_le : (real (termCollectCreate it noTermsCollect)).length ≤ noTermsCollect :=
    (length_filterMap_le _ _).trans length.le
  cases omitted with
  | nil =>
    rw [length_nil] at count
    omega
  | cons e omitted =>
    -- what is left out is at most as frequent as every entry, so that no entry is unused
    have full : (real (termCollectCreate it noTermsCollect)).length = noTermsCollect := by
      refine (filterMap_length_eq_length.mpr fun c mem => ?_).trans length
      have e_mem : e ∈ it :=
        mem_reverse.mp (top.perm.subset (mem_append_right _ mem_cons_self))
      have le := top.below e mem_cons_self c mem
      have lt := positive e e_mem
      cases term : c.term with
      | none =>
        have zero := top.unused c mem term
        omega
      | some term => rfl
    omega

def occurCompare (l r : TermCollect) : Int :=
  if l.setOccur < r.setOccur then 1 else if l.setOccur > r.setOccur then -1 else 0

theorem termQsortHandle_comparator : Comparator termQsortHandle := by
  have occur : Comparator occurCompare := by
    refine .of_lt (fun c => -(c.setOccur : Int)) (fun l r => ?_) fun l r => ?_
    all_goals
      rw [occurCompare]
      split_ifs <;> omega
  have both := occur.lex (strcmp_comparator.comap fun c : TermCollect => c.term.getD [])
  refine Eq.mp (congrArg Comparator (funext₂ fun l r => ?_)) both
  rw [termQsortHandle, occurCompare]
  split_ifs <;> first | rfl | omega

/-- A list of the `k` most frequent ones of the values, the most frequent first -/
structure MostFrequent (k : Nat) (values : List (List Byte)) (facets : List (List Byte × Nat)) :
    Prop where
  length : facets.length = min k values.dedup.length
  nodup : (facets.map Prod.fst).Nodup
  count : ∀ facet ∈ facets, facet.1 ∈ values ∧ facet.2 = values.count facet.1
  ordered : facets.Pairwise fun facet later => later.2 ≤ facet.2
  most : ∀ value ∈ values, value ∉ facets.map Prod.fst →
    ∀ facet ∈ facets, values.count value ≤ facet.2

theorem listed_termCollectFreq (col : List TermCollect) :
    (listed (termCollectFreq col)).Perm (real col) := by
  refine ((qsort_perm _ _).filterMap _).trans (Perm.of_eq ?_)
  rw [filterMap_map, real]
  refine filterMap_congr fun c _ => ?_
  cases term : c.term with
  | none => simp [term]
  | some term => simp [term]

theorem listed_ordered (col : List TermCollect) :
    (listed (termCollectFreq col)).Pairwise fun facet later => later.2 ≤ facet.2 := by
  refine (termQsortHandle_comparator.pairwise_qsort _).filterMap _
    fun l r le facet facet_eq later later_eq => ?_
  obtain ⟨term, -, rfl⟩ := Option.map_eq_some_iff.mp facet_eq
  obtain ⟨term', -, rfl⟩ := Option.map_eq_some_iff.mp later_eq
  rw [termQsortHandle] at le
  split_ifs at le <;> dsimp only <;> omega

theorem Counts.mostFrequent (counts : Counts sm seen) {it : StrMap} (order : it.Perm sm) (k : Nat) :
    MostFrequent k seen (listed (termCollectFreq (termCollectCreate it k))) := by
  have keys := order.map Prod.fst
  have in_sm {e : List Byte × Nat} (mem : e ∈ it) : e.1 ∈ seen ∧ e.2 = seen.count e.1 :=
    ⟨(counts.mem _).mp (mem_map_of_mem (order.subset mem)), counts.count e (order.subset mem)⟩
  have positive : ∀ e ∈ it, 0 < e.2 := by
    intro e mem
    obtain ⟨known, count⟩ := in_sm mem
    exact count ▸ count_pos_iff.mpr known
  obtain ⟨omitted, top, length⟩ := termCollectCreate_top positive k
  have same := listed_termCollectFreq (termCollectCreate it k)
  have listed_mem {e : List Byte × Nat}
      (mem : e ∈ listed (termCollectFreq (termCollectCreate it k))) :
      e ∈ it := top.perm.subset (mem_append_left _ (same.subset mem))
  have distinct : it.length = seen.dedup.length := by
    have nodup : (it.map Prod.fst).Nodup := keys.nodup_iff.mpr counts.nodup
    have perm : (it.map Prod.fst).Perm seen.dedup :=
      (perm_ext_iff_of_nodup nodup (nodup_dedup _)).mpr fun value => by
        rw [keys.mem_iff, counts.mem, mem_dedup]
    rw [← perm.length_eq, length_map]
  refine ⟨by rw [same.length_eq, length, distinct], ?_, fun e mem => in_sm (listed_mem mem),
    listed_ordered _, fun value mem unlisted facet facet_mem => ?_⟩
  · have all : (it.map Prod.fst).Nodup := keys.nodup_iff.mpr counts.nodup
    have parts := (top.perm.map Prod.fst).nodup_iff.mpr all
    rw [map_append] at parts
    exact (same.map Prod.fst).nodup_iff.mpr (nodup_append.mp parts).1
  · obtain ⟨e, e_mem, rfl⟩ := mem_map.mp ((keys.mem_iff.trans (counts.mem value)).mpr mem)
    have left_out : e ∈ omitted := by
      rcases mem_append.mp (top.perm.mem_iff.mpr e_mem) with kept | left_out
      · exact absurd (mem_map_of_mem (same.mem_iff.mpr kept)) unlisted
      · exact left_out
    obtain ⟨c, c_mem, c_eq⟩ := mem_filterMap.mp (same.subset facet_mem)
    obtain ⟨term, -, rfl⟩ := Option.map_eq_some_iff.mp c_eq
    rw [← (in_sm e_mem).2]
    exact top.below e left_out c c_mem

/-- Where there is room for all values, the facets show how often each occurs. -/
theorem MostFrequent.count_eq {values : List (List Byte)} {facets : List (List Byte × Nat)}
    {k : Nat}
    (most : MostFrequent k values facets) (enough : values.dedup.length ≤ k) {value : List Byte}
    (mem : value ∈ values) : (value, values.count value) ∈ facets := by
  have all : (facets.map Prod.fst).Perm values.dedup := by
    refine (subperm_of_subset most.nodup fun term inside => ?_).perm_of_length_le ?_
    · obtain ⟨facet, facet_mem, rfl⟩ := mem_map.mp inside
      exact mem_dedup.mpr (most.count facet facet_mem).1
    · rw [length_map, most.length, min_eq_right enough]
  obtain ⟨⟨term, count⟩, inside, rfl⟩ := mem_map.mp (all.mem_iff.mpr (mem_dedup.mpr mem))
  exact (most.count _ inside).2 ▸ inside

theorem MostFrequent.perm {values values' : List (List Byte)} {facets : List (List Byte × Nat)}
    {k : Nat} (most : MostFrequent k values facets) (same : values.Perm values') :
    MostFrequent k values' facets where
  length := by rw [most.length, same.dedup.length_eq]
  nodup := most.nodup
  count facet mem := by
    obtain ⟨inside, count⟩ := most.count facet mem
    exact ⟨same.mem_iff.mp inside, by rw [count, same.count_eq]⟩
  ordered := most.ordered
  most value mem unlisted facet facet_mem := by
    rw [← same.count_eq]
    exact most.most value (same.mem_iff.mpr mem) unlisted facet facet_mem

/-- The facets made from what has been read are those of what is there if and only if the one is the
other. -/
theorem Counts.mostFrequent_iff (counts : Counts sm seen) (values : List (List Byte)) :
    (∀ it : StrMap, it.Perm sm → ∀ noTermsCollect,
      MostFrequent noTermsCollect values (listed (termCollectFreq (termCollectCreate it
        noTermsCollect)))) ↔ seen.Perm values := by
  constructor
  · intro every
    have most := every sm (Perm.refl sm) (values.dedup.length + seen.dedup.length)
    have own := counts.mostFrequent (Perm.refl sm) (values.dedup.length + seen.dedup.length)
    refine perm_iff_count.mpr fun value => ?_
    by_cases there : value ∈ values
    · exact (own.count _ (most.count_eq (Nat.le_add_right _ _) there)).2.symm
    · by_cases read : value ∈ seen
      · exact absurd (most.count _ (own.count_eq (Nat.le_add_left _ _) read)).1 there
      · rw [count_eq_zero.mpr there, count_eq_zero.mpr read]
  · intro same it order noTermsCollect
    exact (counts.mostFrequent order noTermsCollect).perm same

/-- For each ordinal in turn, what the records have can be read. -/
def FacetsFound (files : SortFiles (List Value)) (poset : List Nat) : List Nat → SortIndex → Prop
  | [], _ => True
  | ord :: ordArray, si =>
    RecordsFound files ord poset si ∧
      FacetsFound files poset ordArray (readValues files ord poset si).2

end Zebra.Facets
