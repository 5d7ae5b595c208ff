import Mathlib.Data.List.Induction
import Zebra.Lib.Varint

/-!
# The snippet window

`zebra_snippets_window`: of each ordinal with hits, the words of the document in a window of
`window_size` positions.  The window is laid around the hits of the densest run of hits that begins
at a hit.
-/

namespace Zebra.Snippet

open List

structure SnippetWord where
  seqno : Int
  ord : Int
  term : List Byte
  isMatch : Int
  ws : Int
  deriving DecidableEq

/-- The first loop over the hits: the least ordinal above `ord`, with 0 for "not set yet" -/
def nextOrd (ord : Int) (hits : List SnippetWord) : Int :=
  hits.foldl
    (fun minOrd hit => if hit.ord > ord ∧ (minOrd = 0 ∨ hit.ord < minOrd) then hit.ord else minOrd)
    0

/-- The loop over `look_w`: the hits of the ordinal up to the first hit at `limit` or behind it, and
the position of the last one -/
def lookLoop (ord limit : Int) : List SnippetWord → Nat → Int → Nat × Int
  | [], numberThis, seqNoLast => (numberThis, seqNoLast)
  | look :: next, numberThis, seqNoLast =>
    if look.seqno < limit then
      if look.ord = ord then lookLoop ord limit next (numberThis + 1) look.seqno
      else lookLoop ord limit next numberThis seqNoLast
    else (numberThis, seqNoLast)

/-- `number_best_window`, `first_seq_no_best_window` and `last_seq_no_best_window` -/
structure Run where
  number : Nat
  first : Int
  last : Int

/-- The second loop over the hits: the run with the most hits that begins at one -/
def runLoop (ord windowSize : Int) : List SnippetWord → Run → Run
  | [], best => best
  | hit :: next, best =>
    if hit.ord = ord then
      let (numberThis, seqNoLast) := lookLoop ord (hit.seqno + windowSize) (hit :: next) 0 0
      if numberThis > best.number then
        runLoop ord windowSize next ⟨numberThis, hit.seqno, seqNoLast⟩
      else runLoop ord windowSize next best
    else runLoop ord windowSize next best

def Within (ord start windowSize : Int) (word : SnippetWord) : Prop :=
  word.ord = ord ∧ word.seqno ≥ start ∧ word.seqno < start + windowSize

instance (ord start windowSize : Int) : DecidablePred (Within ord start windowSize) := fun word =>
  inferInstanceAs (Decidable (word.ord = ord ∧ word.seqno ≥ start ∧
    word.seqno < start + windowSize))

open SnippetWord (seqno)

def marked (hits : List SnippetWord) (word : SnippetWord) : SnippetWord :=
  { word with isMatch := if ∃ hit ∈ hits, hit.ord = word.ord ∧
    hit.seqno = word.seqno then 1 else 0 }

def windowWords (doc hits : List SnippetWord) (ord windowStart windowSize : Int) :
    List SnippetWord :=
  (doc.filter fun word => Within ord windowStart windowSize word).map (marked hits)

/-- `window_start`, rounded towards zero -/
def windowStart (best : Run) (windowSize : Int) : Int :=
  (best.first + best.last - windowSize).tdiv 2

def ordLoop (doc hits : List SnippetWord) (windowSize : Int) : Nat → Int → Option (List SnippetWord)
  | 0, _ => none
  | fuel + 1, ord =>
    let minOrd := nextOrd ord hits
    if minOrd = 0 then some []
    else
      let best := runLoop minOrd windowSize hits ⟨0, 0, 0⟩
      let words := windowWords doc hits minOrd (windowStart best windowSize) windowSize
      (ordLoop doc hits windowSize fuel minOrd).map (words ++ ·)

/-- `zebra_snippets_window`; no ordinal comes twice, so the hits bound the rounds. -/
def snippetsWindow (doc hits : List SnippetWord) (windowSize : Int) : Option (List SnippetWord) :=
  ordLoop doc hits (if windowSize = 0 then 1000000 else windowSize) (hits.length + 1) (-1)

variable {doc hits : List SnippetWord} {ord windowSize : Int}

def hitCount (hits : List SnippetWord) (ord windowSize start : Int) : Nat :=
  hits.countP fun hit => Within ord start windowSize hit

def Densest (hits : List SnippetWord) (ord windowSize start : Int) : Prop :=
  ∀ other, hitCount hits ord windowSize other ≤ hitCount hits ord windowSize start

/-- Of each ordinal with hits the words of a densest window, and nothing else -/
structure BestWindows (doc hits : List SnippetWord) (windowSize : Int)
    (result : List SnippetWord) : Prop where
  words : ∀ hit ∈ hits, ∃ start, Densest hits hit.ord windowSize start ∧
    (result.filter fun word => word.ord = hit.ord) = windowWords doc hits hit.ord start windowSize
  only : ∀ word ∈ result, ∃ hit ∈ hits, hit.ord = word.ord

/-- The hits of each ordinal are in the order of their positions. -/
def Sorted (hits : List SnippetWord) : Prop :=
  hits.Pairwise fun a b => a.ord = b.ord → a.seqno ≤ b.seqno

/-- No hit between two hits that are less than a window apart is a window or more behind the
first. -/
def Unbroken (windowSize : Int) : List SnippetWord → Prop
  | [] => True
  | hit :: next => (∀ between later, [between, later].Sublist next → later.ord = hit.ord →
      later.seqno < hit.seqno + windowSize → between.seqno < hit.seqno + windowSize) ∧
        Unbroken windowSize next

/-- The first hit that begins a densest window -/
structure FirstDensest (hits : List SnippetWord) (ord windowSize first : Int) : Prop where
  hit : ∃ hit ∈ hits, hit.ord = ord ∧ hit.seqno = first
  densest : Densest hits ord windowSize first
  least : ∀ hit ∈ hits, hit.ord = ord → hit.seqno < first → ¬ Densest hits ord windowSize hit.seqno

/-- The first densest window that begins at a hit has no hit at its last position, unless it begins
at position 0 or before it. -/
def LastFree (hits : List SnippetWord) (windowSize : Int) : Prop :=
  ∀ ord first, FirstDensest hits ord windowSize first → 0 < first →
    ∀ hit ∈ hits, hit.ord = ord → hit.seqno ≠ first + windowSize - 1

theorem nextOrd_concat (ord : Int) (hits : List SnippetWord) (hit : SnippetWord) :
    nextOrd ord (hits ++ [hit]) =
      if hit.ord > ord ∧ (nextOrd ord hits = 0 ∨ hit.ord < nextOrd ord hits) then hit.ord
      else nextOrd ord hits := by
  rw [nextOrd, foldl_append]
  rfl

/-- The least ordinal above `ord` is found, if the ordinals of hits are positive. -/
theorem nextOrd_spec (ord : Int) (positive : ∀ hit ∈ hits, 0 < hit.ord) :
    (nextOrd ord hits = 0 ∧ ∀ hit ∈ hits, hit.ord ≤ ord) ∨
      (0 < nextOrd ord hits ∧ ord < nextOrd ord hits ∧ (∃ hit ∈ hits, hit.ord = nextOrd ord hits) ∧
        ∀ hit ∈ hits, ord < hit.ord → nextOrd ord hits ≤ hit.ord) := by
  induction hits using List.reverseRecOn with
  | nil => exact .inl ⟨rfl, fun _ mem => absurd mem not_mem_nil⟩
  | append_singleton hits hit ih =>
    have hit_positive := positive hit (mem_append_right _ (mem_singleton_self hit))
    have before := ih fun hit mem => positive hit (mem_append_left _ mem)
    rw [nextOrd_concat]
    split
    · next taken =>
        refine .inr ⟨hit_positive, taken.1, ⟨hit, by simp, rfl⟩, fun other mem above => ?_⟩
        rcases mem_append.mp mem with mem | mem
        · rcases before with ⟨-, none⟩ | ⟨set, -, -, least⟩
          · exact absurd above (not_lt.mpr (none other mem))
          · have le := least other mem above
            rcases taken.2 with zero | lower <;> omega
        · rw [mem_singleton.mp mem]
    · next not_taken =>
        rcases before with ⟨zero, none⟩ | ⟨above_zero, above, ⟨found, mem, same⟩, least⟩
        · refine .inl ⟨zero, fun other mem => ?_⟩
          rcases mem_append.mp mem with mem | mem
          · exact none other mem
          · rw [mem_singleton.mp mem]
            by_contra above
            exact not_taken ⟨not_le.mp above, .inl zero⟩
        · refine .inr ⟨above_zero, above, ⟨found, mem_append_left _ mem, same⟩,
            fun other mem other_above => ?_⟩
          rcases mem_append.mp mem with mem | mem
          · exact least other mem other_above
          · rw [mem_singleton.mp mem] at other_above ⊢
            by_contra lower
            exact not_taken ⟨other_above, .inr (not_le.mp lower)⟩

def Before (ord limit : Int) (hit : SnippetWord) : Prop := hit.ord = ord ∧ hit.seqno < limit

instance (ord limit : Int) : DecidablePred (Before ord limit) := fun hit =>
  inferInstanceAs (Decidable (hit.ord = ord ∧ hit.seqno < limit))

/-- A scan that no hit breaks off counts all hits in front of the limit. -/
theorem lookLoop_eq {limit : Int} (unbroken : ∀ between later, [between, later].Sublist hits →
      later.ord = ord → later.seqno < limit → between.seqno < limit) (number : Nat) (last : Int) :
    lookLoop ord limit hits number last =
      (number + hits.countP fun hit => Before ord limit hit,
        ((hits.filter fun hit => Before ord limit hit).map seqno).getLastD last) := by
  induction hits generalizing number last with
  | nil => rfl
  | cons look next ih =>
    have rest := ih fun between later sublist =>
      unbroken between later (sublist.trans (sublist_cons_self look next))
    rw [lookLoop, countP_cons, filter_cons]
    by_cases low : look.seqno < limit
    · rw [if_pos low]
      by_cases own : look.ord = ord
      · have before : Before ord limit look := ⟨own, low⟩
        rw [if_pos own, rest, if_pos (decide_eq_true before), if_pos (decide_eq_true before),
          map_cons, getLastD_cons]
        exact Prod.ext (by omega) rfl
      · have not_before : ¬ Before ord limit look := fun before => own before.1
        rw [if_neg own, rest,
          if_neg (by simpa using not_before), if_neg (by simpa using not_before)]
        rfl
    · have not_before : ¬ Before ord limit look := fun before => low before.2
      have none : ∀ later ∈ next, ¬ Before ord limit later := fun later mem before =>
        low (unbroken look later (singleton_sublist.mpr mem |>.cons_cons look) before.1 before.2)
      rw [if_neg low, if_neg (by simpa using not_before), if_neg (by simpa using not_before),
        countP_eq_zero.mpr (by simpa using none), filter_eq_nil_iff.mpr (by simpa using none)]
      rfl

/-- What is known of the densest run among the hits of `seen`, out of all hits -/
structure RunSpec (hits seen : List SnippetWord) (ord windowSize : Int) (best : Run) : Prop where
  most : ∀ hit ∈ seen, hit.ord = ord → hitCount hits ord windowSize hit.seqno ≤ best.number
  least : ∀ hit ∈ seen, hit.ord = ord → hit.seqno < best.first →
    hitCount hits ord windowSize hit.seqno < best.number
  run : 0 < best.number → best.number = hitCount hits ord windowSize best.first ∧
    (∃ hit ∈ seen, hit.ord = ord ∧ hit.seqno = best.first) ∧
    (∃ hit ∈ hits, hit.ord = ord ∧ hit.seqno = best.last) ∧ best.first ≤ best.last ∧
    best.last < best.first + windowSize ∧
    ∀ hit ∈ hits, Within ord best.first windowSize hit → hit.seqno ≤ best.last

variable {seen next : List SnippetWord} {hit : SnippetWord}

/-- The hits of a window that begins at a hit are counted from the first hit at this place on. -/
theorem hitCount_suffix
    (all : hits = seen ++ hit :: next) (sorted : Sorted hits) (own : hit.ord = ord) :
    hitCount hits ord windowSize hit.seqno =
      (seen.countP fun other => other.ord = ord ∧ other.seqno = hit.seqno ∧ 0 < windowSize) +
        ((hit :: next).countP fun other => Before ord (hit.seqno + windowSize) other) := by
  obtain ⟨-, behind, across⟩ := pairwise_append.mp (all ▸ sorted)
  rw [hitCount, all, countP_append]
  congr 1
  · refine countP_congr fun other mem => ?_
    have before := across other mem hit mem_cons_self
    rw [decide_eq_true_iff, decide_eq_true_iff]
    constructor
    · rintro ⟨same, above, below⟩
      have le := before (same.trans own.symm)
      exact ⟨same, by omega, by omega⟩
    · rintro ⟨same, place, positive⟩
      exact ⟨same, by omega, by omega⟩
  · refine countP_congr fun other mem => ?_
    rw [decide_eq_true_iff, decide_eq_true_iff]
    constructor
    · rintro ⟨same, -, below⟩
      exact ⟨same, below⟩
    · rintro ⟨same, below⟩
      rcases mem_cons.mp mem with rfl | mem
      · exact ⟨same, le_refl _, below⟩
      · exact ⟨same, (pairwise_cons.mp behind).1 other mem (own.trans same.symm), below⟩

theorem le_getLastD {values : List Int} (ascending : values.Pairwise (· ≤ ·)) (last : Int) :
    ∀ value ∈ values, value ≤ values.getLastD last := by
  induction values generalizing last with
  | nil => exact fun _ mem => absurd mem not_mem_nil
  | cons head rest ih =>
    obtain ⟨least, behind⟩ := pairwise_cons.mp ascending
    rw [getLastD_cons]
    intro value mem
    rcases mem_cons.mp mem with rfl | mem
    · cases rest with
      | nil => exact le_refl _
      | cons next rest =>
        exact (least next mem_cons_self).trans (ih behind _ next mem_cons_self)
    · exact ih behind head value mem

variable {best : Run}

theorem RunSpec.more
    (spec : RunSpec hits seen ord windowSize best) (all : hits = seen ++ hit :: next)
    (sorted : Sorted hits) (positive : 0 < windowSize) (own : hit.ord = ord)
    (more : best.number <
      (hit :: next).countP fun other => Before ord (hit.seqno + windowSize) other) :
    RunSpec hits (seen ++ [hit]) ord windowSize
      ⟨(hit :: next).countP fun other => Before ord (hit.seqno + windowSize) other, hit.seqno,
        (((hit :: next).filter fun other =>
          Before ord (hit.seqno + windowSize) other).map seqno).getLastD 0⟩ := by
  have count := @hitCount_suffix hits ord windowSize _ _ hit all sorted own
  have first : (seen.countP fun other =>
      other.ord = ord ∧ other.seqno = hit.seqno ∧ 0 < windowSize) = 0 := by
    refine countP_eq_zero.mpr fun other mem same => ?_
    obtain ⟨same, place, -⟩ := of_decide_eq_true same
    have most := spec.most other mem same
    rw [place, count] at most
    omega
  rw [first, Nat.zero_add] at count
  have here : Before ord (hit.seqno + windowSize) hit := ⟨own, by omega⟩
  have values_eq : ((hit :: next).filter fun other =>
      Before ord (hit.seqno + windowSize) other).map seqno =
        hit.seqno :: (next.filter fun other =>
          Before ord (hit.seqno + windowSize) other).map seqno := by
    rw [filter_cons, if_pos (decide_eq_true here), map_cons]
  obtain ⟨-, behind, across⟩ := pairwise_append.mp (all ▸ sorted)
  obtain ⟨least, rest⟩ := pairwise_cons.mp behind
  have ascending : (((hit :: next).filter fun other =>
      Before ord (hit.seqno + windowSize) other).map seqno).Pairwise (· ≤ ·) := by
    refine pairwise_map.mpr ((behind.filter _).imp_of_mem fun mem mem' le => ?_)
    have own₁ : Before ord _ _ := of_decide_eq_true (mem_filter.mp mem).2
    have own₂ : Before ord _ _ := of_decide_eq_true (mem_filter.mp mem').2
    exact le (own₁.1.trans own₂.1.symm)
  have bound := le_getLastD ascending 0
  have last_mem : (((hit :: next).filter fun other =>
      Before ord (hit.seqno + windowSize) other).map seqno).getLastD 0 ∈
        ((hit :: next).filter fun other =>
          Before ord (hit.seqno + windowSize) other).map seqno := by
    rw [values_eq, getLastD_cons]
    exact getLastD_mem_cons
  obtain ⟨last, last_filter, last_eq⟩ := mem_map.mp last_mem
  obtain ⟨last_in, last_before⟩ := mem_filter.mp last_filter
  have last_before : Before ord (hit.seqno + windowSize) last := of_decide_eq_true last_before
  refine ⟨fun other mem same => ?_, fun other mem same lower => ?_, fun _ => ⟨count.symm,
    ⟨hit, mem_append_right _ (mem_singleton_self hit), own, rfl⟩,
    ⟨last, all ▸ mem_append_right _ last_in, last_before.1, last_eq⟩,
    bound _ (values_eq ▸ mem_cons_self), last_eq ▸ last_before.2, ?_⟩⟩
  · rcases mem_append.mp mem with mem | mem
    · exact (spec.most other mem same).trans more.le
    · rw [mem_singleton.mp mem, count]
  · rcases mem_append.mp mem with mem | mem
    · exact (spec.most other mem same).trans_lt more
    · rw [mem_singleton.mp mem] at lower
      exact absurd lower (lt_irrefl _)
  · rintro other mem ⟨same, above, below⟩
    rcases mem_append.mp (all ▸ mem) with mem | mem
    · have le := across other mem hit mem_cons_self (same.trans own.symm)
      exact le.trans (bound _ (values_eq ▸ mem_cons_self))
    · exact bound _ (mem_map.mpr ⟨other,
        mem_filter.mpr ⟨mem, decide_eq_true ⟨same, below⟩⟩, rfl⟩)

theorem RunSpec.no_more
    (spec : RunSpec hits seen ord windowSize best) (all : hits = seen ++ hit :: next)
    (sorted : Sorted hits) (positive : 0 < windowSize) (own : hit.ord = ord)
    (no_more : ((hit :: next).countP fun other => Before ord (hit.seqno + windowSize) other) ≤
      best.number) : RunSpec hits (seen ++ [hit]) ord windowSize best := by
  have count := @hitCount_suffix hits ord windowSize _ _ hit all sorted own
  have here : Before ord (hit.seqno + windowSize) hit := ⟨own, by omega⟩
  have some_hit : 0 < (hit :: next).countP fun other => Before ord (hit.seqno + windowSize) other :=
    countP_pos_iff.mpr ⟨hit, mem_cons_self, decide_eq_true here⟩
  obtain ⟨number, ⟨first, first_mem, first_own, first_eq⟩, last⟩ := spec.run (by omega)
  obtain ⟨-, -, across⟩ := pairwise_append.mp (all ▸ sorted)
  have most : hitCount hits ord windowSize hit.seqno ≤ best.number := by
    rw [count]
    rcases Nat.eq_zero_or_pos (seen.countP fun other =>
      other.ord = ord ∧ other.seqno = hit.seqno ∧ 0 < windowSize) with zero | some_seen
    · omega
    · obtain ⟨other, mem, same⟩ := countP_pos_iff.mp some_seen
      obtain ⟨same, place, -⟩ := of_decide_eq_true same
      have most := spec.most other mem same
      rwa [place, count] at most
  refine ⟨fun other mem same => ?_, fun other mem same lower => ?_, fun _ => ⟨number,
    ⟨first, mem_append_left _ first_mem, first_own, first_eq⟩, last⟩⟩
  · rcases mem_append.mp mem with mem | mem
    · exact spec.most other mem same
    · rwa [mem_singleton.mp mem]
  · rcases mem_append.mp mem with mem | mem
    · exact spec.least other mem same lower
    · rw [mem_singleton.mp mem] at lower
      have le := across first first_mem hit mem_cons_self (first_own.trans own.symm)
      omega

theorem runLoop_spec (all : hits = seen ++ next)
    (sorted : Sorted hits) (unbroken : Unbroken windowSize next) (positive : 0 < windowSize)
      (spec : RunSpec hits seen ord windowSize best) :
    RunSpec hits hits ord windowSize (runLoop ord windowSize next best) := by
  induction next generalizing seen best with
  | nil =>
    rw [append_nil] at all
    subst all
    exact spec
  | cons hit next ih =>
    have all' : hits = (seen ++ [hit]) ++ next := by rw [all, append_assoc]; rfl
    rw [runLoop]
    by_cases own : hit.ord = ord
    · have unbroken' : ∀ between later, [between, later].Sublist (hit :: next) → later.ord = ord →
          later.seqno < hit.seqno + windowSize → between.seqno < hit.seqno + windowSize := by
        intro between later sublist later_own low
        cases sublist with
        | cons _ sublist => exact unbroken.1 between later sublist (later_own.trans own.symm) low
        | cons_cons _ sublist => omega
      rw [if_pos own, lookLoop_eq unbroken', Nat.zero_add]
      dsimp only
      split
      · next more => exact ih all' unbroken.2 (spec.more all sorted positive own more)
      · next no_more =>
          exact ih all' unbroken.2 (spec.no_more all sorted positive own (not_lt.mp no_more))
    · rw [if_neg own]
      refine ih all' unbroken.2 ⟨fun other mem => ?_, fun other mem => ?_, fun some_run => ?_⟩
      · rcases mem_append.mp mem with mem | mem
        · exact spec.most other mem
        · exact fun same => absurd (mem_singleton.mp mem ▸ same) own
      · rcases mem_append.mp mem with mem | mem
        · exact spec.least other mem
        · exact fun same => absurd (mem_singleton.mp mem ▸ same) own
      · obtain ⟨number, ⟨first, first_mem, place⟩, last⟩ := spec.run some_run
        exact ⟨number, ⟨first, mem_append_left _ first_mem, place⟩, last⟩

theorem runLoop_best (sorted : Sorted hits) (unbroken : Unbroken windowSize hits)
    (positive : 0 < windowSize) (mem : hit ∈ hits) (own : hit.ord = ord) :
    RunSpec hits hits ord windowSize (runLoop ord windowSize hits ⟨0, 0, 0⟩) ∧
      0 < (runLoop ord windowSize hits ⟨0, 0, 0⟩).number := by
  have none : ∀ hit ∈ ([] : List SnippetWord), False := fun _ => not_mem_nil
  have spec : RunSpec hits hits ord windowSize (runLoop ord windowSize hits ⟨0, 0, 0⟩) :=
    runLoop_spec (nil_append hits).symm sorted unbroken positive
    ⟨fun _ mem => (none _ mem).elim, fun _ mem => (none _ mem).elim,
      fun lt => absurd lt (lt_irrefl _)⟩
  refine ⟨spec, lt_of_lt_of_le ?_ (spec.most hit mem own)⟩
  exact countP_pos_iff.mpr ⟨hit, mem, decide_eq_true ⟨own, le_refl _, by omega⟩⟩

/-- A run with the most hits that begin at one begins a densest window. -/
theorem RunSpec.densest (spec : RunSpec hits hits ord windowSize best)
    (sorted : Sorted hits) (some_run : 0 < best.number) :
    Densest hits ord windowSize best.first := by
  intro other
  rw [← (spec.run some_run).1]
  rcases Nat.eq_zero_or_pos (hitCount hits ord windowSize other) with zero | some_hit
  · omega
  · rw [hitCount, countP_eq_length_filter] at some_hit
    obtain ⟨hit, rest, inside_eq⟩ := exists_cons_of_length_pos some_hit
    have inside (x : SnippetWord) : x ∈ hit :: rest ↔ x ∈ hits ∧ Within ord other windowSize x := by
      rw [← inside_eq, mem_filter, decide_eq_true_iff]
    obtain ⟨mem, own, above, -⟩ := (inside hit).mp mem_cons_self
    have behind := sorted.filter fun x => Within ord other windowSize x
    rw [inside_eq] at behind
    have least := (pairwise_cons.mp behind).1
    refine le_trans (countP_mono_left fun x x_mem within => ?_) (spec.most hit mem own)
    have within : Within ord other windowSize x := of_decide_eq_true within
    refine decide_eq_true ⟨within.1, ?_, ?_⟩
    · rcases mem_cons.mp ((inside x).mpr ⟨x_mem, within⟩) with rfl | behind
      · exact le_refl _
      · exact least x behind (own.trans within.1.symm)
    · have below := within.2.2
      omega

theorem RunSpec.firstDensest (spec : RunSpec hits hits ord windowSize best)
    (sorted : Sorted hits) (some_run : 0 < best.number) :
    FirstDensest hits ord windowSize best.first := by
  have densest := spec.densest sorted some_run
  obtain ⟨number, first, -⟩ := spec.run some_run
  refine ⟨first, densest, fun hit mem own lower no => ?_⟩
  have less := spec.least hit mem own lower
  have most := no best.first
  omega

theorem windowStart_eq (best : Run) (windowSize : Int) :
    (0 ≤ best.first + best.last - windowSize ∧
      windowStart best windowSize = (best.first + best.last - windowSize) / 2) ∨
      (best.first + best.last - windowSize < 0 ∧
        windowStart best windowSize = (best.first + best.last - windowSize + 1) / 2) := by
  rw [windowStart]
  generalize best.first + best.last - windowSize = sum
  rcases le_or_gt 0 sum with nonneg | negative
  · exact .inl ⟨nonneg, Int.tdiv_eq_ediv_of_nonneg nonneg⟩
  · refine .inr ⟨negative, ?_⟩
    have flip : sum.tdiv 2 = -((-sum).tdiv 2) := by rw [Int.neg_tdiv, neg_neg]
    rw [flip, Int.tdiv_eq_ediv_of_nonneg (by omega)]
    omega

theorem RunSpec.inside (spec : RunSpec hits hits ord windowSize best) (some_run : 0 < best.number)
    (free : 0 < best.first → best.last ≠ best.first + windowSize - 1) :
    windowStart best windowSize ≤ best.first ∧
      best.last < windowStart best windowSize + windowSize := by
  obtain ⟨-, -, -, order, short, -⟩ := spec.run some_run
  have start := windowStart_eq best windowSize
  omega

/-- The window of a run that is as long begins one position in front of the run. -/
theorem RunSpec.cut (long : best.last = best.first + windowSize - 1)
    (above : 0 < best.first) : windowStart best windowSize = best.first - 1 := by
  have start := windowStart_eq best windowSize
  omega

theorem RunSpec.densest_window (spec : RunSpec hits hits ord windowSize best)
    (sorted : Sorted hits) (some_run : 0 < best.number)
    (free : 0 < best.first → best.last ≠ best.first + windowSize - 1) :
    Densest hits ord windowSize (windowStart best windowSize) := by
  intro other
  refine (spec.densest sorted some_run other).trans (countP_mono_left fun hit mem within => ?_)
  obtain ⟨begins, ends⟩ := spec.inside some_run free
  have within : Within ord best.first windowSize hit := of_decide_eq_true within
  have le := (spec.run some_run).2.2.2.2.2 hit mem within
  have above := within.2.1
  exact decide_eq_true ⟨within.1, by omega, by omega⟩

theorem countP_lt {α : Type} {p q : α → Bool} {l : List α} (imp : ∀ x ∈ l, p x → q x) {x : α}
    (mem : x ∈ l) (not_p : p x = false) (holds_q : q x = true) : l.countP p < l.countP q := by
  obtain ⟨front, back, rfl⟩ := append_of_mem mem
  have front_le := countP_mono_left fun y mem => imp y (mem_append_left _ mem)
  have back_le := countP_mono_left fun y mem =>
    imp y (mem_append_right _ (mem_cons_of_mem x mem))
  rw [countP_append, countP_append, countP_cons_of_neg (by simp [not_p]),
    countP_cons_of_pos holds_q]
  omega

theorem RunSpec.not_densest (spec : RunSpec hits hits ord windowSize best)
    (sorted : Sorted hits) (some_run : 0 < best.number)
    (long : best.last = best.first + windowSize - 1) :
    ¬ Densest hits ord windowSize (best.first - 1) := by
  intro densest
  have first := spec.firstDensest sorted some_run
  obtain ⟨-, -, ⟨last, last_mem, last_own, last_eq⟩, order, -⟩ := spec.run some_run
  by_cases in_front : ∃ hit ∈ hits, hit.ord = ord ∧ hit.seqno = best.first - 1
  · obtain ⟨hit, mem, own, place⟩ := in_front
    exact first.least hit mem own (by omega) (place ▸ densest)
  · have less : hitCount hits ord windowSize (best.first - 1) <
        hitCount hits ord windowSize best.first := by
      refine countP_lt (fun hit mem within => ?_) last_mem ?_ ?_
      · have within : Within ord (best.first - 1) windowSize hit := of_decide_eq_true within
        have above : hit.seqno ≠ best.first - 1 := fun place => in_front ⟨hit, mem, within.1, place⟩
        obtain ⟨own, least, below⟩ := within
        exact decide_eq_true ⟨own, by omega, by omega⟩
      · refine decide_eq_false fun within => ?_
        have below := within.2.2
        omega
      · exact decide_eq_true ⟨last_own, by omega, by omega⟩
    exact absurd (densest best.first) (not_le.mpr less)

theorem mem_windowWords {word : SnippetWord} {start : Int}
    (mem : word ∈ windowWords doc hits ord start windowSize) : word.ord = ord := by
  obtain ⟨own, own_mem, rfl⟩ := mem_map.mp mem
  have within : Within ord start windowSize own := of_decide_eq_true (mem_filter.mp own_mem).2
  exact within.1

def codeStart (hits : List SnippetWord) (ord windowSize : Int) : Int :=
  windowStart (runLoop ord windowSize hits ⟨0, 0, 0⟩) windowSize

/-- The loop gives of each ordinal with hits that is above `ord` the words of one window. -/
theorem ordLoop_spec (positive : ∀ hit ∈ hits, 0 < hit.ord) {fuel : Nat}
    (enough : hits.countP (fun hit => ord < hit.ord) < fuel) :
    ∃ result, ordLoop doc hits windowSize fuel ord = some result ∧
      (∀ word ∈ result, ord < word.ord ∧ ∃ hit ∈ hits, hit.ord = word.ord) ∧
      ∀ hit ∈ hits, ord < hit.ord → (result.filter fun word => word.ord = hit.ord) =
        windowWords doc hits hit.ord (codeStart hits hit.ord windowSize) windowSize := by
  induction fuel generalizing ord with
  | zero => exact absurd enough (Nat.not_lt_zero _)
  | succ fuel ih =>
    rw [ordLoop]
    rcases nextOrd_spec ord positive with ⟨zero, none⟩ | ⟨set, above,
      ⟨found, found_mem, same⟩, least⟩
    · rw [if_pos zero]
      exact ⟨[], rfl, fun _ mem => absurd mem not_mem_nil,
        fun hit mem lt => absurd lt (not_lt.mpr (none hit mem))⟩
    · have fewer : hits.countP (fun hit => nextOrd ord hits < hit.ord) <
          hits.countP (fun hit => ord < hit.ord) := by
        refine countP_lt (fun hit _ lt => ?_) found_mem ?_ ?_
        · exact decide_eq_true (above.trans (of_decide_eq_true lt))
        · exact decide_eq_false (by omega)
        · exact decide_eq_true (by omega)
      obtain ⟨rest, rest_eq, only, words⟩ := @ih (nextOrd ord hits) (by omega)
      rw [if_neg (by omega)]
      dsimp only
      rw [rest_eq, Option.map_some]
      refine ⟨_, rfl, fun word mem => ?_, fun hit mem lt => ?_⟩
      · rcases mem_append.mp mem with mem | mem
        · rw [mem_windowWords mem]
          exact ⟨above, found, found_mem, same⟩
        · obtain ⟨lt, found⟩ := only word mem
          exact ⟨above.trans lt, found⟩
      · rw [filter_append]
        rcases (least hit mem lt).eq_or_lt with own | later
        · have none : ∀ word ∈ rest, ¬ decide (word.ord = hit.ord) = true := by
            intro word mem
            have lt := (only word mem).1
            rw [decide_eq_true_iff]
            omega
          rw [filter_eq_nil_iff.mpr none, append_nil, filter_eq_self.mpr fun word mem =>
            decide_eq_true ((mem_windowWords mem).trans own), own]
          rfl
        · rw [words hit mem later, filter_eq_nil_iff.mpr fun word mem => ?_, nil_append]
          rw [decide_eq_true_iff, mem_windowWords mem]
          omega

theorem FirstDensest.unique {first first' : Int} (left : FirstDensest hits ord windowSize first)
    (right : FirstDensest hits ord windowSize first') : first = first' := by
  obtain ⟨hit, mem, own, rfl⟩ := left.hit
  obtain ⟨hit', mem', own', rfl⟩ := right.hit
  rcases lt_trichotomy hit.seqno hit'.seqno with lower | same | higher
  · exact absurd left.densest (right.least hit mem own lower)
  · exact same
  · exact absurd right.densest (left.least hit' mem' own' higher)

theorem hitCount_le_of_words
    (covered : ∀ hit ∈ hits, ∃ word ∈ doc, word.ord = hit.ord ∧ word.seqno = hit.seqno)
    {start start' : Int} (same : windowWords doc hits ord start windowSize =
      windowWords doc hits ord start' windowSize) :
    hitCount hits ord windowSize start ≤ hitCount hits ord windowSize start' := by
  refine countP_mono_left fun hit mem within => ?_
  obtain ⟨own, above, below⟩ : Within ord start windowSize hit := of_decide_eq_true within
  obtain ⟨word, word_mem, word_own, place⟩ := covered hit mem
  have there : marked hits word ∈ windowWords doc hits ord start windowSize :=
    mem_map.mpr ⟨word, mem_filter.mpr ⟨word_mem,
      decide_eq_true ⟨word_own.trans own, by omega, by omega⟩⟩, rfl⟩
  rw [same] at there
  obtain ⟨other, other_mem, other_eq⟩ := mem_map.mp there
  obtain ⟨-, above', below'⟩ : Within ord start' windowSize other :=
    of_decide_eq_true (mem_filter.mp other_mem).2
  have place' : (marked hits other).seqno = (marked hits word).seqno := by rw [other_eq]
  change other.seqno = word.seqno at place'
  exact decide_eq_true ⟨own, by omega, by omega⟩

/-- The windows are best if the first densest runs leave their last position free, and only then if
all hits are words of the document. -/
theorem snippetsWindow_best (doc : List SnippetWord) (one_le : 1 ≤ windowSize)
    (sorted : Sorted hits) (positive : ∀ hit ∈ hits, 0 < hit.ord)
    (unbroken : Unbroken windowSize hits) :
    ∃ result, snippetsWindow doc hits windowSize = some result ∧
      (LastFree hits windowSize → BestWindows doc hits windowSize result) ∧
      ((∀ hit ∈ hits, ∃ word ∈ doc, word.ord = hit.ord ∧ word.seqno = hit.seqno) →
        BestWindows doc hits windowSize result → LastFree hits windowSize) := by
  obtain ⟨result, result_eq, only, words⟩ := @ordLoop_spec doc hits (-1) windowSize positive _
    (Nat.lt_succ_of_le countP_le_length)
  have run {hit : SnippetWord} (mem : hit ∈ hits) :=
    runLoop_best sorted unbroken (by omega) mem (Eq.refl hit.ord)
  rw [snippetsWindow, if_neg (by omega)]
  refine ⟨result, result_eq, fun free => ⟨fun hit mem => ?_, fun word mem => (only word mem).2⟩,
    fun covered best ord first densest above hit mem own long => ?_⟩
  · obtain ⟨spec, some_run⟩ := run mem
    refine ⟨_, spec.densest_window sorted some_run fun above long => ?_,
      words hit mem (by have := positive hit mem; omega)⟩
    obtain ⟨-, -, ⟨last, last_mem, last_own, last_eq⟩, -⟩ := spec.run some_run
    exact free hit.ord _ (spec.firstDensest sorted some_run) above last last_mem last_own
      (last_eq.trans long)
  · subst own
    obtain ⟨spec, some_run⟩ := run mem
    have first_eq := densest.unique (spec.firstDensest sorted some_run)
    obtain ⟨-, -, -, -, short, bound⟩ := spec.run some_run
    have last_le := bound hit mem ⟨rfl, by omega, by omega⟩
    have cut := @RunSpec.cut windowSize _ (by omega) (first_eq ▸ above)
    obtain ⟨start, start_densest, start_words⟩ := best.words hit mem
    rw [words hit mem (by have := positive hit mem; omega), codeStart, cut] at start_words
    refine spec.not_densest sorted some_run (by omega) fun other => ?_
    exact (start_densest other).trans (hitCount_le_of_words covered start_words.symm)

/-- A word at the first position of the first ordinal -/
def oneWord : SnippetWord := ⟨1, 1, [97], 0, 0⟩

/-- `a b c` with a `d` far behind, and an `e` of the second ordinal -/
def someWords : List SnippetWord :=
  [oneWord, ⟨1, 2, [98], 0, 0⟩, ⟨1, 3, [99], 0, 0⟩, ⟨1, 9, [100], 0, 0⟩, ⟨2, 1, [101], 0, 0⟩]

/-- All but `b` are hits. -/
def someHits : List SnippetWord := someWords.eraseIdx 1

theorem unbroken_someHits : Unbroken 4 someHits := by
  have pairs {hit : SnippetWord} {next : List SnippetWord}
      (all : next.Pairwise fun between later => later.ord = hit.ord →
        later.seqno < hit.seqno + 4 → between.seqno < hit.seqno + 4) :
      ∀ between later, [between, later].Sublist next → later.ord = hit.ord →
        later.seqno < hit.seqno + 4 → between.seqno < hit.seqno + 4 :=
    fun _ _ sublist => pairwise_iff_forall_sublist.mp all sublist
  exact ⟨pairs (by decide), pairs (by decide), pairs (by decide), pairs (by decide), trivial⟩

theorem snippetsWindow_best_some :
    ∃ result, snippetsWindow someWords someHits 4 = some result ∧
      (LastFree someHits 4 → BestWindows someWords someHits 4 result) ∧
      ((∀ hit ∈ someHits, ∃ word ∈ someWords, word.ord = hit.ord ∧ word.seqno = hit.seqno) →
        BestWindows someWords someHits 4 result → LastFree someHits 4) :=
  snippetsWindow_best someWords (by decide) (by unfold Sorted; decide) (by decide)
    unbroken_someHits

/-- A window of one position lies in front of the hit. -/
theorem not_snippetsWindow_best : ¬ ∀ (doc hits : List SnippetWord) (windowSize : Int),
    1 ≤ windowSize → Sorted hits →
      ∃ result, snippetsWindow doc hits windowSize = some result ∧
        BestWindows doc hits windowSize result := by
  intro all
  obtain ⟨result, result_eq, best⟩ := all [oneWord] [oneWord] 1 (by decide)
    (pairwise_singleton _ _)
  have nothing : snippetsWindow [oneWord] [oneWord] 1 = some [] := by decide
  cases nothing.symm.trans result_eq
  obtain ⟨start, densest, words⟩ := best.words oneWord (mem_singleton_self _)
  have none : hitCount [oneWord] 1 1 start = 0 := by
    rw [hitCount, countP_eq_length_filter]
    exact length_eq_zero_iff.mpr (map_eq_nil_iff.mp words.symm)
  have one : hitCount [oneWord] 1 1 1 = 1 := by decide
  have le := densest 1
  rw [show oneWord.ord = 1 from rfl, none, one] at le
  exact absurd le (by decide)

end Zebra.Snippet
