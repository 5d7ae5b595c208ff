import Mathlib.Data.List.Dedup
import Mathlib.Data.List.Induction
import Zebra.Search.ScanTerms

/-!
# The merge of several indexes

Each round of a loop of `rpn_scan_norm` takes the nearest of the terms that are left in any of the
indexes, so that the loop goes through all of them in order.
-/

namespace Zebra.Search

open List Function ScanInfo

section

variable (d : TermDict) (postings : Postings) (pres : List (List Byte))

/-- The distinct terms of the indexes in ascending order. -/
def TermDict.allTerms : List (List Byte) :=
  ((pres.flatMap fun pre => (d.termsAt pre).map Prod.fst).dedup).insertionSort (· ≤ ·)

def TermDict.isamPs (term : List Byte) : List Nat :=
  pres.filterMap fun pre => (d.termsAt pre).lookup term

/-- The number of records of a term in the indexes; the first in a field is no term. -/
def TermDict.occurrences (term : List Byte) : Nat :=
  if term = firstInFieldStr then 0 else postings.count (d.isamPs pres term)

def TermDict.entriesOf (terms : List (List Byte)) : List ScanEntry :=
  (terms.map fun term => ⟨term, d.occurrences postings pres term⟩).filter
    fun entry => 0 < entry.occurrences

end

variable {d : TermDict} {postings : Postings} {pres : List (List Byte)}

theorem mem_allTerms {t : List Byte} :
    t ∈ d.allTerms pres ↔ ∃ pre ∈ pres, ∃ p, (t, p) ∈ d.termsAt pre := by
  simp [TermDict.allTerms, mem_dedup]

theorem allTerms_sorted (d : TermDict) (pres : List (List Byte)) :
    (d.allTerms pres).Pairwise (· < ·) := by
  have ordered : (d.allTerms pres).Pairwise (· ≤ ·) := pairwise_insertionSort _ _
  have once : (d.allTerms pres).Nodup :=
    (perm_insertionSort _ _).nodup_iff.mpr (nodup_dedup _)
  apply (ordered.and once).imp
  exact fun both => lt_of_le_of_ne both.1 both.2

theorem lookup_termsAt {pre t : List Byte} {p : Nat} :
    (d.termsAt pre).lookup t = some p ↔ (t, p) ∈ d.termsAt pre := by
  have listed {q : Nat} (found : (d.termsAt pre).lookup t = some q) : (t, q) ∈ d.termsAt pre := by
    obtain ⟨front, back, same, -⟩ := lookup_eq_some_iff.mp found
    rw [same]
    exact mem_append_right _ mem_cons_self
  constructor
  · exact listed
  · intro mem
    have some : ((d.termsAt pre).lookup t).isSome :=
      lookup_isSome_iff.mpr ⟨(t, p), mem, beq_self_eq_true t⟩
    obtain ⟨q, found⟩ := Option.isSome_iff_exists.mp some
    rw [found, termsAt_unique (listed found) mem]

structure Direction.Sound (d : TermDict) (dir : Direction) : Prop where
  irrefl : ∀ t, dir.nearer t t = false
  trans : ∀ {t u v}, dir.nearer t u = true → dir.nearer u v = true → dir.nearer t v = true
  total : ∀ t u, dir.nearer t u = true ∨ t = u ∨ dir.nearer u t = true
  step : dir.step = 1 ∨ dir.step = -1
  pre : ∀ first e, (dir.find first e).pre = e.pre
  ready : ∀ first e, e.isamP ≠ 0 → dir.find first e = e
  next : ∀ e p, e.isamP = 0 → (e.term, p) ∈ d.termsAt e.pre →
    Settled d dir (fun t => dir.nearer e.term t = true) (dir.find false e)

theorem forward_sound (d : TermDict) (numEntries : Nat) :
    (forward d.toDictionary numEntries).Sound d where
  irrefl t := decide_eq_false (lt_irrefl t)
  trans first second := decide_eq_true ((of_decide_eq_true first).trans (of_decide_eq_true second))
  total t u := by
    rcases lt_trichotomy t u with lower | same | upper
    · exact .inl (decide_eq_true lower)
    · exact .inr (.inl same)
    · exact .inr (.inr (decide_eq_true upper))
  step := .inl rfl
  pre first e := by
    cases first with
    | false => exact findTerm_pre 0 2 1 e (.inr (.inl ⟨rfl, rfl, rfl⟩))
    | true => exact findTerm_pre 0 1 1 e (.inl ⟨rfl, rfl, rfl⟩)
  ready first e some := findTerm_ready some
  next e p none here := (forward_next d numEntries none here).congr fun t _ _ => decide_eq_true_iff

theorem backward_sound (d : TermDict) : (backward d.toDictionary).Sound d where
  irrefl t := decide_eq_false (lt_irrefl t)
  trans first second := decide_eq_true ((of_decide_eq_true second).trans (of_decide_eq_true first))
  total t u := by
    rcases lt_trichotomy t u with lower | same | upper
    · exact .inr (.inr (decide_eq_true lower))
    · exact .inr (.inl same)
    · exact .inl (decide_eq_true upper)
  step := .inr rfl
  pre first e := findTerm_pre 1 0 (-1) e (.inr (.inr ⟨rfl, rfl, rfl⟩))
  ready first e some := findTerm_ready some
  next e p none here := (backward_next d false none).congr fun t _ _ => decide_eq_true_iff

variable {dir : Direction} {ar : List ScanInfo}

theorem pickTerm_append (nearer : List Byte → List Byte → Bool) (ar : List ScanInfo)
    (e : ScanInfo) :
    pickTerm nearer (ar ++ [e]) =
      if e.isamP ≠ 0 ∧ (pickTerm nearer ar).all (nearer e.term) then some e.term
      else pickTerm nearer ar := by
  rw [pickTerm, foldl_append]
  rfl

theorem pickTerm_none (nearer : List Byte → List Byte → Bool) (ar : List ScanInfo) :
    pickTerm nearer ar = none ↔ ∀ e ∈ ar, e.isamP = 0 := by
  induction ar using reverseRecOn with
  | nil => exact ⟨fun _ e mem => absurd mem not_mem_nil, fun _ => rfl⟩
  | append_singleton ar e ih =>
    rw [pickTerm_append]
    constructor
    · intro none
      split at none
      · cases none
      · next other =>
        intro e' mem
        rcases mem_append.mp mem with earlier | last
        · exact ih.mp none e' earlier
        · rw [mem_singleton.mp last]
          by_contra some
          exact other ⟨some, by rw [none]; rfl⟩
    · intro all
      rw [if_neg]
      · exact ih.mpr fun e' mem => all e' (mem_append_left _ mem)
      · rintro ⟨some, -⟩
        exact some (all e (mem_append_right _ (mem_singleton_self e)))

/-- The term that is picked is one that has been found, and none is nearer. -/
theorem pickTerm_some (sound : dir.Sound d) {t : List Byte}
    (picked : pickTerm dir.nearer ar = some t) :
    (∃ e ∈ ar, e.isamP ≠ 0 ∧ e.term = t) ∧
      ∀ e ∈ ar, e.isamP ≠ 0 → dir.nearer e.term t = false := by
  induction ar using reverseRecOn generalizing t with
  | nil => cases picked
  | append_singleton ar e ih =>
    have here : e ∈ ar ++ [e] := mem_append_right _ (mem_singleton_self e)
    rw [pickTerm_append] at picked
    split at picked
    · next takes =>
      obtain rfl := Option.some.inj picked
      refine ⟨⟨e, here, takes.1, rfl⟩, ?_⟩
      intro e' mem some
      rcases mem_append.mp mem with earlier | last
      · cases best : pickTerm dir.nearer ar with
        | none => exact absurd ((pickTerm_none dir.nearer ar).mp best e' earlier) some
        | some u =>
          have nearer : dir.nearer e.term u = true := by
            have all := takes.2
            rw [best] at all
            exact all
          by_contra less
          have reach := sound.trans (Bool.eq_true_of_not_eq_false less) nearer
          rw [(ih best).2 e' earlier some] at reach
          cases reach
      · rw [mem_singleton.mp last]
        exact sound.irrefl e.term
    · next stays =>
      obtain ⟨⟨e', mem, some, same⟩, least⟩ := ih picked
      refine ⟨⟨e', mem_append_left _ mem, some, same⟩, ?_⟩
      intro e' mem some
      rcases mem_append.mp mem with earlier | last
      · exact least e' earlier some
      · rw [mem_singleton.mp last] at some ⊢
        by_contra less
        apply stays
        rw [picked]
        exact ⟨some, Bool.eq_true_of_not_eq_false less⟩

/-- The terms that are left in a direction. -/
structure Ahead (d : TermDict) (dir : Direction) (pres : List (List Byte))
    (rest : List (List Byte)) : Prop where
  ordered : rest.Pairwise fun t u => dir.nearer t u = true
  listed : ∀ t ∈ rest, t ∈ d.allTerms pres
  closed : ∀ t ∈ rest, ∀ u ∈ d.allTerms pres, dir.nearer t u = true → u ∈ rest

theorem Ahead.tail (sound : dir.Sound d) {t : List Byte} {rest : List (List Byte)}
    (ahead : Ahead d dir pres (t :: rest)) : Ahead d dir pres rest where
  ordered := (pairwise_cons.mp ahead.ordered).2
  listed u mem := ahead.listed u (.tail _ mem)
  closed u mem v all nearer := by
    rcases mem_cons.mp (ahead.closed u (.tail _ mem) v all nearer) with
      rfl | later
    · have back := sound.trans nearer ((pairwise_cons.mp ahead.ordered).1 u mem)
      rw [sound.irrefl u] at back
      cases back
    · exact later

/-- The terms after the first of those that are left. -/
theorem Ahead.mem_tail (sound : dir.Sound d) {t : List Byte} {rest : List (List Byte)}
    (ahead : Ahead d dir pres (t :: rest)) {u : List Byte} (all : u ∈ d.allTerms pres) :
    u ∈ rest ↔ dir.nearer t u = true := by
  constructor
  · exact (pairwise_cons.mp ahead.ordered).1 u
  · intro nearer
    rcases mem_cons.mp (ahead.closed t mem_cons_self u all nearer) with rfl | later
    · rw [sound.irrefl u] at nearer
      cases nearer
    · exact later

section

variable {rest : List (List Byte)} {t : List Byte}

theorem pick_nil (settled : ∀ e ∈ ar, Settled d dir (· ∈ ([] : List (List Byte))) e) :
    pickTerm dir.nearer ar = none := by
  rw [pickTerm_none]
  intro e mem
  by_contra some
  exact absurd ((settled e mem).left some) not_mem_nil

theorem pick_cons (sound : dir.Sound d) (ahead : Ahead d dir pres (t :: rest))
    (owners : ar.map pre = pres) (settled : ∀ e ∈ ar, Settled d dir (· ∈ t :: rest) e) :
    pickTerm dir.nearer ar = some t := by
  obtain ⟨pre, owned, p, listed⟩ := mem_allTerms.mp (ahead.listed t mem_cons_self)
  rw [← owners] at owned
  obtain ⟨e, mem, rfl⟩ := mem_map.mp owned
  have some : e.isamP ≠ 0 := fun none =>
    (settled e mem).none_left none t p listed mem_cons_self
  cases picked : pickTerm dir.nearer ar with
  | none => exact absurd ((pickTerm_none dir.nearer ar).mp picked e mem) some
  | some u =>
    obtain ⟨⟨e', mem', some', rfl⟩, least⟩ := pickTerm_some sound picked
    rcases mem_cons.mp ((settled e' mem').left some') with same | later
    · rw [same]
    · have further := (pairwise_cons.mp ahead.ordered).1 e'.term later
      have not_less := least e mem some
      have near := (settled e mem).nearest some t p listed mem_cons_self
      rcases sound.total e.term t with less | same | less
      · rw [sound.trans less further] at not_less
        cases not_less
      · rw [same, further] at not_less
        cases not_less
      · rw [less] at near
        cases near

theorem has_iff {e : ScanInfo} : e.has t = true ↔ e.isamP ≠ 0 ∧ e.term = t := by
  simp [has]

/-- The entries that have the picked term are those of the indexes that it is in. -/
theorem has_lookup (sound : dir.Sound d) (picked : pickTerm dir.nearer ar = some t)
    (settled : ∀ e ∈ ar, Settled d dir (· ∈ t :: rest) e) {e : ScanInfo} (mem : e ∈ ar) :
    (if e.has t then some e.isamP else none) = (d.termsAt e.pre).lookup t := by
  split
  · next has =>
    obtain ⟨some, same⟩ := has_iff.mp has
    have found := (settled e mem).found some
    rw [same] at found
    exact (lookup_termsAt.mpr found).symm
  · next other =>
    symm
    by_contra here
    obtain ⟨p, found⟩ := Option.ne_none_iff_exists'.mp here
    have listed := lookup_termsAt.mp found
    have some : e.isamP ≠ 0 := fun none =>
      (settled e mem).none_left none t p listed mem_cons_self
    have near := (settled e mem).nearest some t p listed mem_cons_self
    have not_less := (pickTerm_some sound picked).2 e mem some
    rcases sound.total e.term t with less | same | less
    · rw [less] at not_less
      cases not_less
    · exact other (has_iff.mpr ⟨some, same⟩)
    · rw [less] at near
      cases near

variable (postings) in
theorem save_count (sound : dir.Sound d) (owners : ar.map pre = pres)
    (picked : pickTerm dir.nearer ar = some t)
    (settled : ∀ e ∈ ar, Settled d dir (· ∈ t :: rest) e) :
    (scanSaveSet postings ar t).1 = d.occurrences postings pres t := by
  have isamPs : (ar.filter (·.has t)).map isamP = d.isamPs pres t := by
    rw [TermDict.isamPs, ← owners, filterMap_map, ← filterMap_eq_filter,
      map_filterMap]
    apply filterMap_congr
    intro e mem
    rw [comp_apply, ← has_lookup sound picked settled mem]
    by_cases has : e.has t
    · simp [has]
    · simp [has]
  rw [scanSaveSet, TermDict.occurrences, isamPs]

/-- After a round the entries look for the terms after the one that was taken. -/
theorem save_settled (sound : dir.Sound d) (ahead : Ahead d dir pres (t :: rest))
    (owners : ar.map pre = pres)
    (settled : ∀ e ∈ ar, Settled d dir (· ∈ t :: rest) e) {e' : ScanInfo}
    (saved : e' ∈ (scanSaveSet postings ar t).2) :
    Settled d dir (· ∈ rest) (dir.find false e') := by
  obtain ⟨e, mem, rfl⟩ := mem_map.mp saved
  have here := settled e mem
  split
  · next has =>
    obtain ⟨some, same⟩ := has_iff.mp has
    have found := here.found some
    have next := sound.next { e with isamP := 0 } e.isamP rfl found
    apply next.congr
    intro u p listed
    dsimp only
    rw [sound.pre] at listed
    have all : u ∈ d.allTerms pres :=
      mem_allTerms.mpr ⟨e.pre, owners ▸ mem_map_of_mem mem, p, listed⟩
    rw [same]
    exact ahead.mem_tail sound all
  · next other =>
    by_cases none : e.isamP = 0
    · rw [here.again none]
      refine ⟨?_, fun _ => here.again none, fun some => absurd none some,
        fun some => absurd none some, fun some => absurd none some⟩
      intro _ u p listed later
      exact here.none_left none u p listed (.tail _ later)
    · rw [sound.ready false e none]
      refine ⟨fun zero => absurd zero none, fun zero => absurd zero none, here.found, ?_, ?_⟩
      · intro _
        rcases mem_cons.mp (here.left none) with same | later
        · exact absurd (has_iff.mpr ⟨none, same⟩) other
        · exact later
      · intro _ u p listed later
        exact here.nearest none u p listed (.tail _ later)

theorem save_owners (owners : ar.map pre = pres) :
    (scanSaveSet postings ar t).2.map pre = pres := by
  rw [← owners, scanSaveSet, map_map]
  apply map_congr_left
  intro e _
  rw [comp_apply]
  split <;> rfl

end

/-- What a loop has done: of the entries ahead it has put the first `count` at consecutive places,
as far as these are in the list, and it has stopped at the end of the entries or of the places. -/
structure Ran (dir : Direction) (numEntries : Nat) (pos : Int) (glist : Int → Option ScanEntry)
    (entries : List ScanEntry) (count : Nat) (result : Int → Option ScanEntry) : Prop where
  le : count ≤ entries.length
  going : ∀ j : Nat, j < count → dir.goOn (pos + j * dir.step) = true
  ended : count < entries.length → dir.goOn (pos + count * dir.step) = false
  kept : ∀ j : Nat, j < count → 0 ≤ pos + j * dir.step → pos + j * dir.step < numEntries →
    result (pos + j * dir.step) = entries[j]?
  others : ∀ i : Int, (∀ j : Nat, j ≤ count → i ≠ pos + j * dir.step) → result i = glist i

namespace Ran

variable {numEntries : Nat} {pos : Int} {glist glist' result : Int → Option ScanEntry}
  {entries : List ScanEntry} {count : Nat}

theorem stop (ended : entries ≠ [] → dir.goOn pos = false) :
    Ran dir numEntries pos glist entries 0 glist where
  le := Nat.zero_le _
  going j less := absurd less (Nat.not_lt_zero j)
  ended less := by
    rw [Nat.cast_zero, zero_mul, add_zero]
    exact ended (ne_nil_of_length_pos less)
  kept j less := absurd less (Nat.not_lt_zero j)
  others i _ := rfl

/-- What has been written at the place of the next entry does not matter. -/
theorem skip (ran : Ran dir numEntries pos glist' entries count result)
    (same : ∀ i, i ≠ pos → glist' i = glist i) :
    Ran dir numEntries pos glist entries count result where
  le := ran.le
  going := ran.going
  ended := ran.ended
  kept := ran.kept
  others i apart := by
    rw [ran.others i apart]
    apply same
    have first := apart 0 (Nat.zero_le count)
    rwa [Nat.cast_zero, zero_mul, add_zero] at first

theorem place (pos step : Int) (j : Nat) :
    pos + ((j + 1 : Nat) : Int) * step = pos + step + (j : Int) * step := by
  push_cast
  ring

theorem cons {entry : ScanEntry} (step : dir.step = 1 ∨ dir.step = -1)
    (ran : Ran dir numEntries (pos + dir.step) glist' entries count result)
    (going : dir.goOn pos = true) (same : ∀ i, i ≠ pos → glist' i = glist i)
    (put : 0 ≤ pos → pos < numEntries → glist' pos = some entry) :
    Ran dir numEntries pos glist (entry :: entries) (count + 1) result where
  le := by
    have le := ran.le
    rw [length_cons]
    omega
  going j less := by
    cases j with
    | zero =>
      rw [Nat.cast_zero, zero_mul, add_zero]
      exact going
    | succ j =>
      rw [place]
      exact ran.going j (by omega)
  ended less := by
    rw [place]
    rw [length_cons] at less
    exact ran.ended (by omega)
  kept j less low high := by
    cases j with
    | zero =>
      rw [Nat.cast_zero, zero_mul, add_zero] at low high ⊢
      rw [ran.others pos, put low high]
      · rfl
      · intro j _
        rcases step with one | one
        · rw [one]
          omega
        · rw [one]
          omega
    | succ j =>
      rw [place] at low high ⊢
      rw [getElem?_cons_succ]
      exact ran.kept j (by omega) low high
  others i apart := by
    rw [ran.others i, same i]
    · have first := apart 0 (Nat.zero_le _)
      rwa [Nat.cast_zero, zero_mul, add_zero] at first
    · intro j le
      rw [← place]
      exact apart (j + 1) (by omega)

end Ran

theorem entriesOf_cons (t : List Byte) (rest : List (List Byte)) :
    d.entriesOf postings pres (t :: rest) =
      if 0 < d.occurrences postings pres t then
        ⟨t, d.occurrences postings pres t⟩ :: d.entriesOf postings pres rest
      else
        d.entriesOf postings pres rest := by
  rw [TermDict.entriesOf, map_cons, filter_cons]
  simp only [decide_eq_true_eq]
  rfl

def putEntry (numEntries : Nat) (pos : Int) (entry : ScanEntry) (glist : Int → Option ScanEntry) :
    Int → Option ScanEntry :=
  if entry.term ≠ firstInFieldStr ∧ 0 ≤ pos ∧ pos < numEntries then
    Function.update glist pos (some entry)
  else
    glist

theorem putEntry_same (numEntries : Nat) {pos : Int} (entry : ScanEntry)
    (glist : Int → Option ScanEntry) (i : Int) (apart : i ≠ pos) :
    putEntry numEntries pos entry glist i = glist i := by
  rw [putEntry]
  split
  · exact update_of_ne apart _ _
  · rfl

theorem putEntry_here {numEntries : Nat} {pos : Int} {entry : ScanEntry}
    (glist : Int → Option ScanEntry) (term : entry.term ≠ firstInFieldStr) (low : 0 ≤ pos)
    (high : pos < numEntries) : putEntry numEntries pos entry glist pos = some entry := by
  rw [putEntry, if_pos ⟨term, low, high⟩, update_self]

section

variable {numEntries fuel : Nat} {first : Bool} {pos : Int} {glist : Int → Option ScanEntry}

theorem scanLoop_stop (stop : dir.goOn pos = false) :
    scanLoop postings dir numEntries (fuel + 1) first pos ar glist = some (pos, glist) := by
  rw [scanLoop, if_neg (Bool.eq_false_iff.mp stop)]

theorem scanLoop_none (going : dir.goOn pos = true)
    (picked : pickTerm dir.nearer (ar.map (dir.find first)) = none) :
    scanLoop postings dir numEntries (fuel + 1) first pos ar glist = some (pos, glist) := by
  rw [scanLoop, if_pos going]
  dsimp only
  rw [picked]

theorem scanLoop_some {t : List Byte} (going : dir.goOn pos = true)
    (picked : pickTerm dir.nearer (ar.map (dir.find first)) = some t) :
    scanLoop postings dir numEntries (fuel + 1) first pos ar glist =
      scanLoop postings dir numEntries fuel false
        (if 0 < (scanSaveSet postings (ar.map (dir.find first)) t).1 then pos + dir.step else pos)
        (scanSaveSet postings (ar.map (dir.find first)) t).2
        (putEntry numEntries pos ⟨t, (scanSaveSet postings (ar.map (dir.find first)) t).1⟩
          glist) := by
  rw [scanLoop, if_pos going]
  dsimp only
  rw [picked]
  rfl

/-- With as many rounds as terms that are left, and one more, a loop ends. -/
theorem scanLoop_ran (sound : dir.Sound d) {rest : List (List Byte)} (enough : rest.length < fuel)
    (ahead : Ahead d dir pres rest) (owners : ar.map pre = pres)
    (settled : ∀ e ∈ ar, Settled d dir (· ∈ rest) (dir.find first e)) :
    ∃ count result, scanLoop postings dir numEntries fuel first pos ar glist =
        some (pos + (count : Nat) * dir.step, result) ∧
      Ran dir numEntries pos glist (d.entriesOf postings pres rest) count result := by
  induction fuel generalizing first pos ar glist rest with
  | zero => exact absurd enough (Nat.not_lt_zero _)
  | succ fuel ih =>
    have here : pos + ((0 : Nat) : Int) * dir.step = pos := by
      rw [Nat.cast_zero, zero_mul, add_zero]
    cases going : dir.goOn pos with
    | false =>
      refine ⟨0, glist, ?_, Ran.stop fun _ => going⟩
      rw [here]
      exact scanLoop_stop going
    | true =>
      have owners' : (ar.map (dir.find first)).map pre = pres := by
        rw [← owners, map_map]
        exact map_congr_left fun e _ => sound.pre first e
      have settled' : ∀ e ∈ ar.map (dir.find first), Settled d dir (· ∈ rest) e := by
        intro found found_mem
        obtain ⟨e, mem, rfl⟩ := mem_map.mp found_mem
        exact settled e mem
      cases rest with
      | nil =>
        refine ⟨0, glist, ?_, Ran.stop fun some => absurd rfl some⟩
        rw [here]
        exact scanLoop_none going (pick_nil settled')
      | cons t rest =>
        have picked := pick_cons sound ahead owners' settled'
        have less : rest.length < fuel := by
          rw [length_cons] at enough
          omega
        have counted := save_count postings sound owners' picked settled'
        have later : ∀ e ∈ (scanSaveSet postings (ar.map (dir.find first)) t).2,
            Settled d dir (· ∈ rest) (dir.find false e) :=
          fun e mem => save_settled sound ahead owners' settled' mem
        have next (pos' : Int) (glist' : Int → Option ScanEntry) :=
          @ih _ _ pos' glist' _ less (ahead.tail sound) (save_owners owners') later
        rw [scanLoop_some going picked, counted, entriesOf_cons]
        split
        · next some =>
          have term : t ≠ firstInFieldStr := by
            intro same
            rw [TermDict.occurrences, if_pos same] at some
            exact absurd some (Nat.lt_irrefl 0)
          obtain ⟨count, result, done, ran⟩ := next (pos + dir.step)
            (putEntry numEntries pos ⟨t, d.occurrences postings pres t⟩ glist)
          refine ⟨count + 1, result, ?_, ran.cons sound.step going ?_ ?_⟩
          · rw [done, Ran.place]
          · exact putEntry_same numEntries _ glist
          · exact putEntry_here glist term
        · next none =>
          obtain ⟨count, result, done, ran⟩ := next pos
            (putEntry numEntries pos ⟨t, d.occurrences postings pres t⟩ glist)
          exact ⟨count, result, done, ran.skip (putEntry_same numEntries _ glist)⟩

end

end Zebra.Search
