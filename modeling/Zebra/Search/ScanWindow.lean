import Zebra.Search.ScanMerge

/-!
# The window of a scan

What `rpn_scan_norm` returns is a window of the entries of all terms that have records, around the
start term.
-/

namespace Zebra.Search

open List TermDict

open TempFile (keySUEncode)

section

variable (d : TermDict) (postings : Postings) (pres : List (List Byte)) (term : List Byte)

/-- The entries of all terms that have records, in ascending order. -/
def TermDict.live : List ScanEntry :=
  d.entriesOf postings pres (d.allTerms pres)

def TermDict.below : List ScanEntry :=
  (d.live postings pres).filter fun entry => entry.term < term

/-- The entries of the start term and those after it. -/
def TermDict.above : List ScanEntry :=
  (d.live postings pres).filter fun entry => ¬entry.term < term

end

variable {d : TermDict} {postings : Postings} {pres : List (List Byte)} {term : List Byte}

theorem filter_split {terms : List (List Byte)} (sorted : terms.Pairwise (· < ·)) :
    (terms.filter fun t => t < term) ++ (terms.filter fun t => ¬t < term) = terms := by
  induction terms with
  | nil => rfl
  | cons t rest ih =>
    obtain ⟨least, sorted⟩ := pairwise_cons.mp sorted
    by_cases lower : t < term
    · simpa [lower, filter_cons] using ih sorted
    · have none : rest.filter (fun t => t < term) = [] := by
        rw [filter_eq_nil_iff]
        intro u mem
        simpa using (not_lt.mp lower).trans (least u mem).le
      have all : rest.filter (fun t => ¬t < term) = rest := by
        rw [filter_eq_self]
        intro u mem
        simpa using (not_lt.mp lower).trans (least u mem).le
      rw [filter_cons_of_neg (by simpa using lower), none,
        filter_cons_of_pos (by simpa using lower), all]
      rfl

theorem entriesOf_append (terms more : List (List Byte)) :
    d.entriesOf postings pres (terms ++ more) =
      d.entriesOf postings pres terms ++ d.entriesOf postings pres more := by
  simp [entriesOf]

theorem entriesOf_reverse (terms : List (List Byte)) :
    d.entriesOf postings pres terms.reverse = (d.entriesOf postings pres terms).reverse := by
  simp [entriesOf]

theorem entriesOf_filter (p : List Byte → Bool) (terms : List (List Byte)) :
    d.entriesOf postings pres (terms.filter p) =
      (d.entriesOf postings pres terms).filter fun entry => p entry.term := by
  simp only [entriesOf, filter_map, filter_filter]
  congr 1
  apply filter_congr
  intro t _
  exact Bool.and_comm _ _

theorem below_eq (term : List Byte) : d.below postings pres term =
    d.entriesOf postings pres ((d.allTerms pres).filter fun t => t < term) := by
  rw [entriesOf_filter]
  rfl

theorem above_eq (term : List Byte) : d.above postings pres term =
    d.entriesOf postings pres ((d.allTerms pres).filter fun t => ¬t < term) := by
  rw [entriesOf_filter]
  rfl

theorem live_split (term : List Byte) :
    d.below postings pres term ++ d.above postings pres term = d.live postings pres := by
  rw [below_eq, above_eq, ← entriesOf_append, filter_split (allTerms_sorted d pres)]
  rfl

theorem allTerms_length (d : TermDict) (pres : List (List Byte)) :
    (d.allTerms pres).length ≤ pres.length * d.allKeys.length := by
  have each (pre : List Byte) : ((d.termsAt pre).map Prod.fst).length ≤ d.allKeys.length := by
    rw [length_map, termsAt, length_map]
    exact length_filter_le _ _
  have sum : (pres.flatMap fun pre => (d.termsAt pre).map Prod.fst).length ≤
      pres.length * d.allKeys.length := by
    induction pres with
    | nil => simp
    | cons pre pres ih =>
      rw [flatMap_cons, length_append, length_cons, Nat.succ_mul, Nat.add_comm]
      exact Nat.add_le_add ih (each pre)
  rw [allTerms, length_insertionSort]
  exact (dedup_sublist _).length_le.trans sum

theorem startInfo_owners (term : List Byte) (ords : List Nat) :
    (ords.map (startInfo term)).map ScanInfo.pre = ords.map keySUEncode := by
  rw [map_map]
  rfl

variable {ords : List Nat}

theorem mem_all_of_start {e : ScanInfo} (mem : e ∈ ords.map (startInfo term)) {t : List Byte}
    {p : Nat} (listed : (t, p) ∈ d.termsAt e.pre) : t ∈ d.allTerms (ords.map keySUEncode) := by
  rw [← startInfo_owners term ords]
  exact mem_allTerms.mpr ⟨e.pre, mem_map_of_mem mem, p, listed⟩

theorem ahead_below (d : TermDict) (pres : List (List Byte)) (term : List Byte) :
    Ahead d (backward d.toDictionary) pres
      ((d.allTerms pres).filter fun t => t < term).reverse where
  ordered := by
    rw [pairwise_reverse]
    exact ((allTerms_sorted d pres).filter _).imp fun lower => decide_eq_true lower
  listed t mem := (mem_filter.mp (mem_reverse.mp mem)).1
  closed t mem u all nearer := by
    have lower := of_decide_eq_true (mem_filter.mp (mem_reverse.mp mem)).2
    rw [mem_reverse, mem_filter]
    exact ⟨all, decide_eq_true ((of_decide_eq_true nearer).trans lower)⟩

theorem ahead_above (d : TermDict) (pres : List (List Byte)) (term : List Byte) (numEntries : Nat) :
    Ahead d (forward d.toDictionary numEntries) pres
      ((d.allTerms pres).filter fun t => ¬t < term) where
  ordered := ((allTerms_sorted d pres).filter _).imp fun lower => decide_eq_true lower
  listed t mem := (mem_filter.mp mem).1
  closed t mem u all nearer := by
    have upper := of_decide_eq_true (mem_filter.mp mem).2
    rw [mem_filter]
    refine ⟨all, decide_eq_true ?_⟩
    exact fun lower => upper ((of_decide_eq_true nearer).trans lower)

theorem backward_ran (d : TermDict) (postings : Postings) (ords : List Nat) (term : List Byte)
    (pos : Int) (numEntries : Nat) (glist : Int → Option ScanEntry) :
    ∃ count result, scanLoop postings (backward d.toDictionary) numEntries
        (ords.length * (d.toDictStruct.keys d.depth).length + 1) true pos
        (ords.map (startInfo term)) glist = some (pos - (count : Nat), result) ∧
      Ran (backward d.toDictionary) numEntries pos glist
        (d.below postings (ords.map keySUEncode) term).reverse count result := by
  have short : ((d.allTerms (ords.map keySUEncode)).filter fun t => t < term).reverse.length <
      ords.length * (d.toDictStruct.keys d.depth).length + 1 := by
    have all := allTerms_length d (ords.map keySUEncode)
    rw [length_map] at all
    rw [length_reverse]
    exact Nat.lt_succ_of_le ((length_filter_le _ _).trans all)
  obtain ⟨count, result, done, ran⟩ := scanLoop_ran (backward_sound d) short
    (ahead_below d (ords.map keySUEncode) term) (startInfo_owners term ords) fun e mem => by
      obtain ⟨ord, -, rfl⟩ := mem_map.mp mem
      apply (backward_next d true rfl).congr
      intro t p listed
      rw [(backward_sound d).pre] at listed
      rw [mem_reverse, mem_filter, decide_eq_true_iff]
      exact and_iff_right (mem_all_of_start mem listed)
  refine ⟨count, result, ?_, ?_⟩
  · rw [done]
    have step : (backward d.toDictionary).step = -1 := rfl
    rw [step, mul_neg_one]
    rfl
  · rw [entriesOf_reverse, ← below_eq] at ran
    exact ran

theorem forward_ran (d : TermDict) (postings : Postings) (ords : List Nat) (term : List Byte)
    (pos : Int) (numEntries : Nat) (glist : Int → Option ScanEntry) :
    ∃ count result, scanLoop postings (forward d.toDictionary numEntries) numEntries
        (ords.length * (d.toDictStruct.keys d.depth).length + 1) true pos
        (ords.map (startInfo term)) glist = some (pos + (count : Nat), result) ∧
      Ran (forward d.toDictionary numEntries) numEntries pos glist
        (d.above postings (ords.map keySUEncode) term) count result := by
  have short : ((d.allTerms (ords.map keySUEncode)).filter fun t => ¬t < term).length <
      ords.length * (d.toDictStruct.keys d.depth).length + 1 := by
    have all := allTerms_length d (ords.map keySUEncode)
    rw [length_map] at all
    exact Nat.lt_succ_of_le ((length_filter_le _ _).trans all)
  obtain ⟨count, result, done, ran⟩ := scanLoop_ran (forward_sound d numEntries) short
    (ahead_above d (ords.map keySUEncode) term numEntries) (startInfo_owners term ords)
    fun e mem => by
      obtain ⟨ord, -, rfl⟩ := mem_map.mp mem
      apply (forward_first d numEntries rfl).congr
      intro t p listed
      rw [(forward_sound d numEntries).pre] at listed
      rw [mem_filter, decide_eq_true_iff]
      exact and_iff_right (mem_all_of_start mem listed)
  refine ⟨count, result, ?_, ?_⟩
  · rw [done]
    have step : (forward d.toDictionary numEntries).step = 1 := rfl
    rw [step, mul_one]
  · rw [← above_eq] at ran
    exact ran

section

variable {numEntries : Nat} {pos : Int} {glist result : Int → Option ScanEntry}
  {entries : List ScanEntry} {count : Nat}

/-- Where the loop for the terms before the start ends. -/
theorem Ran.backward_count (ran : Ran (backward d.toDictionary) numEntries pos glist entries count
    result) : count ≤ entries.length ∧ (0 < count → (count : Int) ≤ pos + 1) ∧
      (count < entries.length → pos + 1 ≤ count) := by
  refine ⟨ran.le, ?_, ?_⟩
  · intro some
    have last : (0 : Int) ≤ pos + ((count - 1 : Nat) : Int) * -1 :=
      of_decide_eq_true (ran.going (count - 1) (by omega))
    omega
  · intro more
    have stop : ¬(0 : Int) ≤ pos + (count : Int) * -1 := of_decide_eq_false (ran.ended more)
    omega

theorem Ran.backward_kept (ran : Ran (backward d.toDictionary) numEntries pos glist entries count
    result) {i : Int} (after : pos - count < i) (upto : i ≤ pos) (low : 0 ≤ i)
    (high : i < numEntries) : result i = entries[(pos - i).toNat]? := by
  have place : pos + ((pos - i).toNat : Int) * (backward d.toDictionary).step = i := by
    have step : (backward d.toDictionary).step = -1 := rfl
    rw [step]
    omega
  have kept := ran.kept (pos - i).toNat (by omega)
  rw [place] at kept
  exact kept low high

/-- Where the loop for the start term and those after it ends. -/
theorem Ran.forward_count (ran : Ran (forward d.toDictionary numEntries) numEntries pos glist
    entries count result) : count ≤ entries.length ∧ (0 < count → pos + count ≤ numEntries) ∧
      (count < entries.length → (numEntries : Int) ≤ pos + count) := by
  refine ⟨ran.le, ?_, ?_⟩
  · intro some
    have last : pos + ((count - 1 : Nat) : Int) * 1 < (numEntries : Int) :=
      of_decide_eq_true (ran.going (count - 1) (by omega))
    omega
  · intro more
    have stop : ¬pos + (count : Int) * 1 < (numEntries : Int) :=
      of_decide_eq_false (ran.ended more)
    omega

theorem Ran.forward_kept (ran : Ran (forward d.toDictionary numEntries) numEntries pos glist
    entries count result) {i : Int} (upto : pos ≤ i) (before : i < pos + count) (low : 0 ≤ i)
    (high : i < numEntries) : result i = entries[(i - pos).toNat]? := by
  have place : pos + ((i - pos).toNat : Int) * (forward d.toDictionary numEntries).step = i := by
    have step : (forward d.toDictionary numEntries).step = 1 := rfl
    rw [step]
    omega
  have kept := ran.kept (i - pos).toNat (by omega)
  rw [place] at kept
  exact kept low high

theorem Ran.forward_others (ran : Ran (forward d.toDictionary numEntries) numEntries pos glist
    entries count result) {i : Int} (before : i < pos) : result i = glist i := by
  apply ran.others
  intro j _
  have step : (forward d.toDictionary numEntries).step = 1 := rfl
  rw [step]
  omega

end

section

/-- The entries of a window: `numEntries` of them with `position - 1` before the start, as far as
there are so many. -/
def window (below above : List ScanEntry) (position : Int) (numEntries : Nat) : List ScanEntry :=
  ((below ++ above).drop (below.length - (position - 1)).toNat).take
    (numEntries - (position - 1 - below.length).toNat)

variable {below above : List ScanEntry} {position : Int} {numEntries numFound : Nat}
  {glist : Int → Option ScanEntry}

theorem window_length (below above : List ScanEntry) (position : Int) (numEntries : Nat) :
    (window below above position numEntries).length =
    min (numEntries - (position - 1 - below.length).toNat)
      (below.length + above.length - (below.length - (position - 1)).toNat) := by
  rw [window, length_take, length_drop, length_append]

theorem window_getElem {i : Nat} (within : i < numEntries - (position - 1 - below.length).toNat) :
    (window below above position numEntries)[i]? =
      (below ++ above)[(below.length - (position - 1)).toNat + i]? := by
  rw [window, getElem?_take_of_lt within, getElem?_drop]

/-- What is in the list after both loops. -/
structure Placed (below above : List ScanEntry) (position : Int) (numEntries first numFound : Nat)
    (start : Int) (glist : Int → Option ScanEntry) : Prop where
  first_le : first ≤ below.length
  first_eq : (first : Int) = position - 1 ∨ first = below.length ∧ below.length < position - 1 ∨
    first = 0 ∧ position - 1 < 0
  start_eq : start = position - 1 - (position - 1 - below.length).toNat
  found_le : numFound ≤ numEntries - (position - 1 - below.length).toNat
  found_eq : numFound = numEntries - (position - 1 - below.length).toNat ∨
    (start + above.length).toNat = numFound
  found_above : (numFound : Int) ≤ start + above.length ∨ numFound ≤ first
  before : ∀ i : Nat, i < numFound → (i : Int) < start →
    glist i = below.reverse[first - 1 - i]?
  after : ∀ i : Nat, i < numFound → start ≤ i → glist i = above[((i : Int) - start).toNat]?

/-- A list with the entries before the start and those from it on in their places is a window. -/
theorem Placed.window_eq {first : Nat} {start : Int}
    (placed : Placed below above position numEntries first numFound start glist) :
    ((List.range numFound).map fun i : Nat => glist i) =
      (window below above position numEntries).map some := by
  obtain ⟨first_le, first_eq, start_eq, found_le, found_eq, found_above, before, after⟩ := placed
  apply ext_getElem?
  intro i
  rw [getElem?_map, getElem?_map]
  rcases Nat.lt_or_ge i numFound with here | past
  · have inside : (below.length - (position - 1)).toNat + i < (below ++ above).length := by
      rw [length_append]
      omega
    have value : glist i = (below ++ above)[(below.length - (position - 1)).toNat + i]? := by
      rcases lt_or_ge (i : Int) start with earlier | later
      · have place : below.length - 1 - (first - 1 - i) =
            (below.length - (position - 1)).toNat + i := by omega
        rw [before i here earlier, getElem?_reverse (by omega), place,
          getElem?_append_left (by omega)]
      · have place : ((i : Int) - start).toNat =
            (below.length - (position - 1)).toNat + i - below.length := by omega
        rw [after i here later, getElem?_append_right (by omega), place]
    rw [getElem?_range here, window_getElem (by omega), getElem?_eq_getElem inside,
      Option.map_some, Option.map_some, value, getElem?_eq_getElem inside]
  · have short := window_length below above position numEntries
    rw [getElem?_eq_none (by rw [length_range]; exact past),
      getElem?_eq_none (by rw [short]; omega)]
    rfl

end

section

variable (d : TermDict) (postings : Postings) (pres : List (List Byte)) (term : List Byte)
  (position : Int) (numEntries : Nat)

structure Returned (result : ScanResult) : Prop where
  list_eq : result.list = (window (d.below postings pres term) (d.above postings pres term) position
    numEntries).map some
  numEntries_eq : result.numEntries = result.list.length
  position_eq : result.position =
    position - (position - 1 - (d.below postings pres term).length).toNat
  isPartial_iff : 0 < numEntries → (result.isPartial = true ↔ result.list.length < numEntries)

end

/-- After the terms before the start the rest fills the window. -/
theorem scanAfter_returned (d : TermDict) (postings : Postings) (ords : List Nat)
    (term : List Byte) (position : Int) (numEntries : Nat) {first : Nat} (wanted : Nat)
    (glist : Int → Option ScanEntry) (isPartial : Bool)
    (first_le : first ≤ (d.below postings (ords.map keySUEncode) term).length)
    (first_eq : (first : Int) = position - 1 ∨
      first = (d.below postings (ords.map keySUEncode) term).length ∧
        (d.below postings (ords.map keySUEncode) term).length < position - 1 ∨
      first = 0 ∧ position - 1 < 0)
    (wanted_eq : wanted = numEntries -
      (position - 1 - (d.below postings (ords.map keySUEncode) term).length).toNat)
    (partial_eq : isPartial = true ↔
      0 < (position - 1 - (d.below postings (ords.map keySUEncode) term).length).toNat)
    (before : ∀ i : Nat, i < wanted → i < first →
      glist i = (d.below postings (ords.map keySUEncode) term).reverse[first - 1 - i]?) :
    ∃ result, scanAfter d.toDictionary postings
        (ords.length * (d.toDictStruct.keys d.depth).length + 1) (ords.map (startInfo term))
        (position -
          (position - 1 - (d.below postings (ords.map keySUEncode) term).length).toNat)
        wanted glist isPartial = some result ∧
      Returned d postings (ords.map keySUEncode) term position numEntries result := by
  set below := d.below postings (ords.map keySUEncode) term with below_eq
  set above := d.above postings (ords.map keySUEncode) term with above_eq
  set missing := (position - 1 - below.length).toNat with missing_eq
  obtain ⟨count, list, done, ran⟩ := forward_ran d postings ords term (position - missing - 1)
    wanted glist
  rw [← above_eq] at ran
  obtain ⟨count_le, count_most, count_least⟩ := ran.forward_count
  have start_le : position - missing - 1 ≤ first ∨ position - missing - 1 < 0 := by omega
  have placed : Placed below above position numEntries first
      (if position - missing - 1 + count < wanted then (position - missing - 1 + count).toNat
        else wanted) (position - missing - 1) list :=
    { first_le := first_le
      first_eq := first_eq
      start_eq := by omega
      found_le := by
        split <;> omega
      found_eq := by
        split <;> omega
      found_above := by
        split <;> omega
      before := by
        intro i here earlier
        have wanted_le : i < wanted := by
          split at here <;> omega
        rw [ran.forward_others earlier]
        exact before i wanted_le (by omega)
      after := by
        intro i here later
        have inside : (i : Int) < position - missing - 1 + count ∧ i < wanted := by
          split at here <;> omega
        exact ran.forward_kept later inside.1 (Int.natCast_nonneg i) (by exact_mod_cast inside.2) }
  rw [scanAfter, done]
  refine ⟨_, rfl, ⟨placed.window_eq, ?_, rfl, ?_⟩⟩
  · dsimp only
    rw [length_map, length_range]
  · intro asked
    dsimp only
    rw [Bool.or_eq_true, decide_eq_true_iff, partial_eq, length_map, length_range]
    split
    · next short => omega
    · next full => omega

theorem rpnScanNorm_returned (d : TermDict) (postings : Postings) (ords : List Nat)
    (term : List Byte) (position : Int) (numEntries : Nat) :
    ∃ result, rpnScanNorm d.toDictionary postings ords term position numEntries = some result ∧
      Returned d postings (ords.map keySUEncode) term position numEntries result := by
  obtain ⟨first, list, ran_back, back⟩ := backward_ran d postings ords term (position - 2)
    numEntries fun _ => none
  obtain ⟨first_le, first_most, first_least⟩ := back.backward_count
  rw [length_reverse] at first_le first_least
  have first_eq : (first : Int) = position - 1 ∨
      first = (d.below postings (ords.map keySUEncode) term).length ∧
        (d.below postings (ords.map keySUEncode) term).length < position - 1 ∨
      first = 0 ∧ position - 1 < 0 := by omega
  have kept (i : Int) (after : position - 2 - first < i) (upto : i ≤ position - 2) (low : 0 ≤ i)
      (high : i < numEntries) : list i = (d.below postings (ords.map keySUEncode) term).reverse[
        (position - 2 - i).toNat]? :=
    back.backward_kept after upto low high
  have result_eq : rpnScanNorm d.toDictionary postings ords term position numEntries =
      if 0 < position - 1 - (first : Int) then
        if position - 1 - (first : Int) < numEntries then
          scanAfter d.toDictionary postings
            (ords.length * (d.toDictStruct.keys d.depth).length + 1) (ords.map (startInfo term))
            (position - (position - 1 - first)) (numEntries - (position - 1 - (first : Int)).toNat)
            (fun i => list (position - 1 - first + i)) true
        else
          scanAfter d.toDictionary postings
            (ords.length * (d.toDictStruct.keys d.depth).length + 1) (ords.map (startInfo term))
            (position - (position - 1 - first)) 0 list true
      else
        scanAfter d.toDictionary postings
          (ords.length * (d.toDictStruct.keys d.depth).length + 1) (ords.map (startInfo term))
          position numEntries list false := by
    have dif_eq : 1 + (position - 2 - (first : Int)) = position - 1 - first := by ring
    rw [rpnScanNorm, ran_back, ← dif_eq]
    rfl
  have missing_eq : ((position - 1 -
      (d.below postings (ords.map keySUEncode) term).length).toNat : Int) =
        max (position - 1 - first) 0 := by omega
  rw [result_eq]
  split
  · next some =>
    have dif_eq : position - 1 - (first : Int) = (position - 1 -
        (d.below postings (ords.map keySUEncode) term).length).toNat := by omega
    split
    · next room =>
      rw [dif_eq]
      apply scanAfter_returned d postings ords term position numEntries _ _ _ first_le first_eq
      · omega
      · simp only [true_iff]
        omega
      · intro i here earlier
        have place : (position - 2 - ((position - 1 - (d.below postings (ords.map keySUEncode)
            term).length).toNat + (i : Int))).toNat = first - 1 - i := by omega
        rw [kept, place]
        all_goals omega
    · next full =>
      rw [dif_eq]
      apply scanAfter_returned d postings ords term position numEntries _ _ _ first_le first_eq
      · omega
      · simp only [true_iff]
        omega
      · intro i here
        exact absurd here (Nat.not_lt_zero i)
  · next all =>
    have none : (position - 1 -
        (d.below postings (ords.map keySUEncode) term).length).toNat = 0 := by omega
    have returned := scanAfter_returned d postings ords term position numEntries numEntries list
      false first_le first_eq
    rw [none, Nat.cast_zero, sub_zero] at returned
    apply returned
    · rfl
    · simp
    · intro i here earlier
      have place : (position - 2 - (i : Int)).toNat = first - 1 - i := by omega
      rw [kept, place]
      all_goals omega

variable {position : Int} {numEntries : Nat}

/-- The entries have their terms in order, each once. -/
theorem live_ascending (d : TermDict) (postings : Postings) (pres : List (List Byte)) :
    ((d.live postings pres).map ScanEntry.term).Pairwise (· < ·) := by
  have terms : ((d.live postings pres).map ScanEntry.term).Sublist (d.allTerms pres) := by
    have all : (((d.allTerms pres).map fun term =>
        (⟨term, d.occurrences postings pres term⟩ : ScanEntry)).map ScanEntry.term) =
          d.allTerms pres := by
      rw [map_map]
      exact map_id _
    rw [← all]
    exact filter_sublist.map _
  exact (allTerms_sorted d pres).sublist terms

theorem mem_live {entry : ScanEntry} :
    entry ∈ d.live postings pres ↔ (∃ pre ∈ pres, ∃ p, (entry.term, p) ∈ d.termsAt pre) ∧
      entry.occurrences = d.occurrences postings pres entry.term ∧ 0 < entry.occurrences := by
  rw [live, entriesOf, mem_filter, mem_map, ← mem_allTerms,
    decide_eq_true_iff]
  constructor
  · rintro ⟨⟨t, listed, rfl⟩, some⟩
    exact ⟨listed, rfl, some⟩
  · rintro ⟨listed, count, some⟩
    refine ⟨⟨entry.term, listed, ?_⟩, some⟩
    rw [← count]

theorem hits_sum (postings : Postings) {isamPs : List Nat}
    (apart : isamPs.Pairwise fun p q => (postings.records p).Disjoint (postings.records q)) :
    postings.hits isamPs = (isamPs.map fun p => postings.hits [p]).sum := by
  induction isamPs with
  | nil => rfl
  | cons p rest ih =>
    obtain ⟨first, apart⟩ := pairwise_cons.mp apart
    have disjoint : (postings.records p).Disjoint (rest.flatMap postings.records) := by
      intro sysno here later
      obtain ⟨q, mem, there⟩ := mem_flatMap.mp later
      exact first q mem here there
    rw [map_cons, sum_cons, ← ih apart]
    simp only [Postings.hits]
    rw [flatMap_cons, disjoint.dedup_append, filter_append, length_append,
      flatMap_singleton]

theorem window_start (below above : List ScanEntry) {position : Int} {numEntries : Nat}
    (from_one : 1 ≤ position - (position - 1 - below.length).toNat)
    (within : position - (position - 1 - below.length).toNat ≤
      (window below above position numEntries).length) :
    (window below above position numEntries)[
      (position - (position - 1 - below.length).toNat - 1).toNat]? = above.head? := by
  have length := window_length below above position numEntries
  have place : (below.length - (position - 1)).toNat +
      (position - (position - 1 - below.length).toNat - 1).toNat = below.length := by omega
  rw [window_getElem (by omega), place, getElem?_append_right le_rfl, Nat.sub_self,
    head?_eq_getElem?]

structure ScanWindow (d : TermDict) (postings : Postings) (pres : List (List Byte))
    (term : List Byte) (position : Int) (numEntries : Nat) (result : ScanResult) : Prop where
  consecutive : result.list = (((d.live postings pres).drop
    ((d.below postings pres term).length - (position - 1)).toNat).take
      result.numEntries).map some
  start : 1 ≤ result.position → result.position ≤ result.numEntries →
    result.list[(result.position - 1).toNat]? = (d.above postings pres term).head?.map some
  position_eq : result.position =
    position - (position - 1 - (d.below postings pres term).length).toNat
  numEntries_eq : result.numEntries =
    min (numEntries - (position - 1 - (d.below postings pres term).length).toNat)
      ((d.live postings pres).length -
        ((d.below postings pres term).length - (position - 1)).toNat)
  length_eq : result.list.length = result.numEntries
  isPartial_iff : 0 < numEntries → (result.isPartial = true ↔ result.numEntries < numEntries)

def TermDict.summed (d : TermDict) (postings : Postings) (pres : List (List Byte))
    (term : List Byte) : Nat :=
  ((d.isamPs pres term).map fun p => postings.hits [p]).sum

def TermDict.summedEntries (d : TermDict) (postings : Postings) (pres terms : List (List Byte)) :
    List ScanEntry :=
  (terms.map fun term => ⟨term, d.summed postings pres term⟩).filter
    fun entry => 0 < entry.occurrences

/-- A window of all terms with their sums, and the partial flag for any number of entries. -/
def ScansSums (d : TermDict) (postings : Postings) (ords : List Nat) (term : List Byte)
    (position : Int) (numEntries : Nat) : Prop :=
  ∃ result, rpnScanNorm d.toDictionary postings ords term position numEntries = some result ∧
    result.list = (window
      (d.summedEntries postings (ords.map keySUEncode)
        ((d.allTerms (ords.map keySUEncode)).filter fun t => t < term))
      (d.summedEntries postings (ords.map keySUEncode)
        ((d.allTerms (ords.map keySUEncode)).filter fun t => ¬t < term))
      position numEntries).map some ∧
    (result.isPartial = true ↔ result.list.length < numEntries)

def twoFields : TermDict where
  page _ := { type := 0, backptr := 0, entries := [.tail [2, 97] [1], .tail [3, 97] [2]] }
  root := 1
  freelist := 29
  calls := []
  depth := 1
  free := [29]
  ordered _ := by
    constructor
    · apply List.Pairwise.cons
      · intro entry mem
        obtain rfl := mem_singleton.mp mem
        exact cons_lt_cons_iff.mpr (Or.inl (by decide))
      · exact pairwise_singleton _ _
    · exact fun _ mem => absurd mem not_mem_nil
  nonzero := by decide
  nodup := by decide
  freeList := ⟨rfl, by decide, rfl⟩
  free_nodup := nodup_singleton 29
  apart := by decide
  distinct := by decide
  isamP := by decide

def firstInField : TermDict where
  page _ := { type := 0, backptr := 0, entries := [.tail [2, 1, 94] [1]] }
  root := 1
  freelist := 31
  calls := []
  depth := 1
  free := [31]
  ordered _ := ⟨pairwise_singleton _ _, fun _ mem => absurd mem not_mem_nil⟩
  nonzero := by decide
  nodup := by decide
  freeList := ⟨rfl, by decide, rfl⟩
  free_nodup := nodup_singleton 31
  apart := by decide
  distinct := by decide
  isamP := by decide

def oneRecord : Postings where
  records _ := [1]
  limitSet := none
  approxLimit := 1000000000
  estimate _ := 1

/-- Ten keys of record 1 and one of each other, of which 11 of 12 are read behind a limit of 1. -/
def threeRecords : Postings where
  records _ := [1, 2, 3]
  limitSet := none
  approxLimit := 1
  estimate _ := 2

end Zebra.Search
