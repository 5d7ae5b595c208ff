import Zebra.Keys.SuCodec
import Zebra.Lib.Decimal

/-!
# Ranking

`rank1.c`: the score of a record is the sum over the ranked terms of a logarithm of the number of
occurrences, times an inverse of the term's frequency, times the weight of the term, divided by a
logarithm of the last position.
-/

namespace Zebra.Rank

open List Function

open SuCodec (int32)

/-- The value fits into an `int`. -/
def InInt (n : Int) : Prop := -2 ^ 31 ≤ n ∧ n < 2 ^ 31

instance (n : Int) : Decidable (InInt n) := inferInstanceAs (Decidable (_ ∧ _))

/-- An `int` -/
def CInt : Type := { n : Int // InInt n }

/-- `log2_int`: how often `g` can be shifted before nothing is left -/
def log2Int (g : Int) : Int := if g < 0 then 0 else (Nat.log2 g.toNat : Int)

/-- `strstr`: the string from the first place on where the other begins -/
def strstr (needle s : List Byte) : Option (List Byte) := s.tails.find? needle.isPrefixOf

/-- `atoi`, by way of `strtol` -/
def atoi (s : List Byte) : Int :=
  let s := s.dropWhile fun c => c = 32 ∨ 9 ≤ c ∧ c ≤ 13
  let number (s : List Byte) : Int := Decimal.value (s.takeWhile fun c => 48 ≤ c ∧ c ≤ 57)
  let value := match s with
    | 45 :: s => -number s
    | 43 :: s => number s
    | s => number s
  (max (-2 ^ 63) (min (2 ^ 63 - 1) value)).bmod (2 ^ 32)

/-- What `begin` reads of a `TERMID`: its flags, and `rset_count` of its result set -/
structure Term where
  flags : List Byte
  count : Int

structure TermInfo where
  localOccur : Int
  globalInv : Int
  rankFlag : Bool
  rankWeight : Int

structure SetInfo where
  lastPos : CInt
  noEntries : Int
  noRankEntries : Int
  entries : List TermInfo

/-- `!strncmp(flags, "rank,", 5)` -/
def Term.ranked (term : Term) : Bool := term.flags.take 5 = [114, 97, 110, 107, 44]

/-- The weight behind `,w=`, or else 34; of a term without the flag it is not read. -/
def Term.weight (term : Term) : Int :=
  match strstr [44, 119, 61] (term.flags.drop 4) with
  | some cp => atoi (cp.drop 3)
  | none => 34

/-- The entry of a term; `local_occur` is set to 0. -/
def Term.entry (term : Term) (localOccur : Int) : TermInfo where
  localOccur
  globalInv := 32 - log2Int term.count
  rankFlag := term.ranked
  rankWeight := term.weight

/-- `begin`; `last_pos` is what happens to be in the memory. -/
def setBegin (garbage : CInt) (terms : List Term) : SetInfo where
  lastPos := garbage
  noEntries := terms.length
  noRankEntries := terms.countP Term.ranked
  entries := terms.map fun term => term.entry 0

/-- `add`, with the place of the term's entry; none where an `int` overflows -/
def add (si : SetInfo) (seqno : CInt) : Option Nat → Option SetInfo
  | none => some si
  | some i =>
    (int32 (((si.entries[i]?.map TermInfo.localOccur).getD 0) + 1)).map fun occur =>
      { si with
        lastPos := seqno
        entries := si.entries.modify i fun ti => { ti with localOccur := occur } }

/-- The loop of `calc_1` over the entries -/
def scoreLoop : List TermInfo → Int → Option Int
  | [], score => some score
  | ti :: entries, score =>
    if ti.rankFlag ∧ ti.localOccur ≠ 0 then
      (int32 ((8 + log2Int ti.localOccur) * ti.globalInv)).bind fun product =>
        (int32 (product * ti.rankWeight)).bind fun product =>
          (int32 (score + product)).bind fun score => scoreLoop entries score
    else scoreLoop entries score

/-- Division; none where the divisor is 0 or an `int` overflows -/
def quotient (n m : Int) : Option Int := if m = 0 then none else int32 (n.tdiv m)

def calc1 (si : SetInfo) : Option (SetInfo × Int) :=
  if si.noRankEntries = 0 then some (si, -1)
  else
    (scoreLoop si.entries 0).bind fun score =>
      (quotient si.lastPos.1 si.noEntries).bind fun place =>
        (int32 (si.noRankEntries * (8 + log2Int place))).bind fun divisor =>
          (quotient score divisor).map fun score =>
            ({ si with entries := si.entries.map fun ti => { ti with localOccur := 0 } },
              if score > 1000 then 1000 else score)

/-- A call between `begin` and `end` -/
inductive Call
  | add (seqno : CInt) (term : Option Nat)
  | calc1

/-- An occurrence that was added: its position and the place of the term -/
abbrev Occurrence := CInt × Nat

/-- The set when these occurrences, and no others, have been added. -/
def setOf (terms : List Term) (lastPos : CInt) (occur : Nat → Int) : SetInfo where
  lastPos
  noEntries := terms.length
  noRankEntries := terms.countP Term.ranked
  entries := terms.mapIdx fun i term => term.entry (occur i)

def occurrences (own : List Occurrence) (i : Nat) : Int :=
    own.countP fun occurrence => occurrence.2 = i

def lastSeqno (own : List Occurrence) : CInt := (own.getLast?.map Prod.fst).getD ⟨0, by decide⟩

def TermInfo.part (ti : TermInfo) : Int :=
  if ti.rankFlag ∧ ti.localOccur ≠ 0 then
    (8 + log2Int ti.localOccur) * ti.globalInv * ti.rankWeight
  else 0

def total (entries : List TermInfo) : Int := (entries.map TermInfo.part).sum

def SetInfo.divisor (si : SetInfo) : Int :=
  si.noRankEntries * (8 + log2Int (si.lastPos.1.tdiv si.noEntries))

def recordScore (terms : List Term) (own : List Occurrence) : Int :=
  let si := setOf terms (lastSeqno own) (occurrences own)
  if si.noRankEntries = 0 then -1 else min ((total si.entries).tdiv si.divisor) 1000

/-- Every call returns, and every score is in range and that of the occurrences that were added
since the last one. -/
def InRange (terms : List Term) : SetInfo → List Occurrence → List Call → Prop
  | _, _, [] => True
  | si, own, .add seqno term :: calls => ∃ si', add si seqno term = some si' ∧
      InRange terms si' (own ++ term.toList.map (seqno, ·)) calls
  | si, own, .calc1 :: calls => ∃ si' score, calc1 si = some (si', score) ∧
      (if terms.countP Term.ranked = 0 then score = -1 else 0 ≤ score ∧ score ≤ 1000) ∧
      score = recordScore terms own ∧ InRange terms si' [] calls

/-- The numbers with which a score is in range. -/
structure Moderate (si : SetInfo) : Prop where
  products : ∀ ti ∈ si.entries, ti.rankFlag ∧ ti.localOccur ≠ 0 →
    InInt ((8 + log2Int ti.localOccur) * ti.globalInv) ∧ InInt ti.part
  sums : ∀ k, InInt (total (si.entries.take k))
  divisor : InInt si.divisor
  positive : -si.divisor < total si.entries

def Call.Sound (si : SetInfo) : Call → Prop
  | .add _ none => True
  | .add _ (some i) => InInt ((si.entries[i]?.map TermInfo.localOccur).getD 0 + 1)
  | .calc1 => si.noRankEntries = 0 ∨ Moderate si

def Call.run (si : SetInfo) : Call → Option SetInfo
  | .add seqno term => Rank.add si seqno term
  | .calc1 => (Rank.calc1 si).map Prod.fst

def AllSound : SetInfo → List Call → Prop
  | _, [] => True
  | si, call :: calls => call.Sound si ∧ ∀ si', call.run si = some si' → AllSound si' calls

theorem int32_eq_some {n m : Int} : int32 n = some m ↔ InInt n ∧ m = n := by
  rw [int32]
  split
  · next fits => exact ⟨fun eq => ⟨fits, (Option.some.inj eq).symm⟩, fun eq => by rw [eq.2]⟩
  · next not_fits => exact ⟨nofun, fun eq => absurd eq.1 not_fits⟩

theorem scoreLoop_eq_some {entries : List TermInfo} {score result : Int} (fits : InInt score) :
    scoreLoop entries score = some result ↔
      ((∀ ti ∈ entries, ti.rankFlag ∧ ti.localOccur ≠ 0 →
        InInt ((8 + log2Int ti.localOccur) * ti.globalInv) ∧ InInt ti.part) ∧
        ∀ k, InInt (score + total (entries.take k))) ∧ result = score + total entries := by
  induction entries generalizing score with
  | nil =>
    rw [scoreLoop, total, map_nil, sum_nil, Int.add_zero]
    constructor
    · intro eq
      refine ⟨⟨fun _ member => absurd member not_mem_nil, fun k => ?_⟩, (Option.some.inj eq).symm⟩
      rw [take_nil, total, map_nil, sum_nil, Int.add_zero]
      exact fits
    · exact fun eq => congrArg some eq.2.symm
  | cons ti entries ih =>
    have total_cons : total (ti :: entries) = ti.part + total entries := by
      rw [total, map_cons, sum_cons]
      rfl
    -- the sums of the rest, with the first part in front
    have prefixes : (∀ k, InInt (score + total ((ti :: entries).take k))) ↔
        InInt (score + ti.part) ∧ ∀ k, InInt (score + ti.part + total (entries.take k)) := by
      have step (k : Nat) : score + total ((ti :: entries).take (k + 1)) =
          score + ti.part + total (entries.take k) := by
        rw [take_succ_cons, total, map_cons, sum_cons, Int.add_assoc]
        rfl
      constructor
      · intro all
        refine ⟨?_, fun k => step k ▸ all (k + 1)⟩
        have first := step 0 ▸ all 1
        rwa [take_zero, total, map_nil, sum_nil, Int.add_zero] at first
      · rintro ⟨-, rest⟩ k
        cases k with
        | zero =>
          rw [take_zero, total, map_nil, sum_nil, Int.add_zero]
          exact fits
        | succ k => exact (step k).symm ▸ rest k
    rw [scoreLoop, forall_mem_cons, prefixes, total_cons]
    split
    · next counted =>
        have part_eq : ti.part = (8 + log2Int ti.localOccur) * ti.globalInv * ti.rankWeight :=
          if_pos counted
        simp only [Option.bind_eq_some_iff, int32_eq_some]
        constructor
        · rintro ⟨_, ⟨first, rfl⟩, _, ⟨second, rfl⟩, _, ⟨third, rfl⟩, run⟩
          rw [← part_eq] at second third run
          obtain ⟨⟨parts, sums⟩, rfl⟩ := (ih third).mp run
          exact ⟨⟨⟨fun _ => ⟨first, second⟩, parts⟩, third, sums⟩, Int.add_assoc ..⟩
        · rintro ⟨⟨⟨own, parts⟩, third, sums⟩, rfl⟩
          obtain ⟨first, second⟩ := own counted
          refine ⟨_, ⟨first, rfl⟩, _, ⟨part_eq ▸ second, rfl⟩, _, ⟨part_eq ▸ third, rfl⟩, ?_⟩
          rw [← part_eq]
          exact (ih third).mpr ⟨⟨parts, sums⟩, (Int.add_assoc ..).symm⟩
    · next not_counted =>
        have part_eq : ti.part = 0 := if_neg not_counted
        rw [ih fits, part_eq, Int.add_zero, Int.zero_add]
        constructor
        · rintro ⟨⟨parts, sums⟩, rfl⟩
          exact ⟨⟨⟨fun counted => absurd counted not_counted, parts⟩, fits, sums⟩, rfl⟩
        · rintro ⟨⟨⟨-, parts⟩, -, sums⟩, rfl⟩
          exact ⟨⟨parts, sums⟩, rfl⟩

theorem tdiv_between {n m : Int} (pos : 0 < m) :
    (0 ≤ n → 0 ≤ n.tdiv m ∧ n.tdiv m ≤ n) ∧ (n ≤ 0 → n ≤ n.tdiv m ∧ n.tdiv m ≤ 0) := by
  refine ⟨fun le => ⟨Int.tdiv_nonneg le pos.le, Int.tdiv_le_self m le⟩, fun le => ?_⟩
  have nonneg := Int.tdiv_nonneg (Int.neg_nonneg_of_nonpos le) pos.le
  have self := Int.tdiv_le_self m (Int.neg_nonneg_of_nonpos le)
  rw [Int.neg_tdiv] at nonneg self
  omega

theorem tdiv_nonneg_iff {n m : Int} (pos : 0 < m) : 0 ≤ n.tdiv m ↔ -m < n := by
  rcases le_or_gt 0 n with nonneg | neg
  · have := Int.tdiv_nonneg nonneg pos.le
    omega
  · have opposite := Int.neg_tdiv n m
    constructor
    · intro le
      have zero : n.tdiv m = 0 := le_antisymm ((tdiv_between pos).2 neg.le).2 le
      have lt := Int.lt_tdiv_add_one_mul_self (-n) pos
      rw [opposite, zero, Int.neg_zero, Int.zero_add, Int.one_mul] at lt
      omega
    · intro lt
      rw [Int.tdiv_eq_zero_of_lt (by omega) (by omega)] at opposite
      omega

theorem quotient_eq_some {n m : Int} (fits : InInt n) (pos : 0 < m) {result : Int} :
    quotient n m = some result ↔ result = n.tdiv m := by
  have inside : InInt (n.tdiv m) := by
    obtain ⟨low, high⟩ := fits
    obtain ⟨above, below⟩ := tdiv_between (n := n) pos
    constructor <;> omega
  rw [quotient, if_neg pos.ne', int32_eq_some]
  exact ⟨fun eq => eq.2, fun eq => ⟨inside, eq⟩⟩

theorem log2Int_nonneg (g : Int) : 0 ≤ log2Int g := by
  rw [log2Int]
  split
  · exact le_refl 0
  · exact Int.natCast_nonneg _

theorem SetInfo.divisor_pos {si : SetInfo} (ranked : 0 < si.noRankEntries) : 0 < si.divisor :=
  Int.mul_pos ranked (by have := log2Int_nonneg (si.lastPos.1.tdiv si.noEntries); omega)

/-- `calc_1` returns a score that is not negative if and only if the numbers are moderate. -/
theorem calc1_eq_some {si si' : SetInfo} {score : Int} (entries : 0 < si.noEntries)
    (ranked : 0 < si.noRankEntries) :
    (calc1 si = some (si', score) ∧ 0 ≤ score) ↔
      Moderate si ∧ si' = { si with entries := si.entries.map fun ti =>
        { ti with localOccur := 0 } } ∧
        score = min ((total si.entries).tdiv si.divisor) 1000 := by
  have pos := si.divisor_pos ranked
  have zero : InInt 0 := by decide
  have last (n : Int) : (if n > 1000 then 1000 else n) = min n 1000 := by omega
  rw [calc1, if_neg ranked.ne']
  simp only [Option.bind_eq_some_iff, Option.map_eq_some_iff, scoreLoop_eq_some zero,
    quotient_eq_some si.lastPos.2 entries, int32_eq_some, Int.zero_add, last, Prod.mk.injEq]
  constructor
  · rintro ⟨⟨_, ⟨⟨products, sums⟩, rfl⟩, _, rfl, _, ⟨divisor, rfl⟩, quot, run, rfl, rfl⟩, nonneg⟩
    have whole : InInt (total si.entries) := by
      have all := sums si.entries.length
      rwa [take_length] at all
    obtain rfl := (quotient_eq_some whole pos).mp run
    refine ⟨⟨products, sums, divisor, (tdiv_nonneg_iff pos).mp ?_⟩, rfl, rfl⟩
    exact (le_min_iff.mp nonneg).1
  · rintro ⟨⟨products, sums, divisor, positive⟩, rfl, rfl⟩
    have whole : InInt (total si.entries) := by
      have all := sums si.entries.length
      rwa [take_length] at all
    exact ⟨⟨_, ⟨⟨products, sums⟩, rfl⟩, _, rfl, _, ⟨divisor, rfl⟩, _,
      (quotient_eq_some whole pos).mpr rfl, rfl, rfl⟩,
      le_min ((tdiv_nonneg_iff pos).mpr positive) (by decide)⟩

theorem setBegin_eq (garbage : CInt) (terms : List Term) :
    setBegin garbage terms = setOf terms garbage fun _ => 0 := by
  rw [setBegin, setOf]
  congr 1
  apply ext_getElem?
  intro i
  rw [getElem?_map, getElem?_mapIdx]

variable {occur : Nat → Int} {terms : List Term}

theorem add_setOf {lastPos seqno : CInt} {i : Nat}
    {si' : SetInfo} : add (setOf terms lastPos occur) seqno (some i) = some si' ↔
      Call.Sound (setOf terms lastPos occur) (.add seqno (some i)) ∧
        si' = setOf terms seqno (Function.update occur i (occur i + 1)) := by
  rw [add, Option.map_eq_some_iff, Call.Sound]
  simp only [int32_eq_some]
  -- the entry of the term, and the others
  have counted : (setOf terms lastPos occur).entries.modify i (fun ti => { ti with
      localOccur := ((setOf terms lastPos occur).entries[i]?.map TermInfo.localOccur).getD 0 + 1 })
        =
      (setOf terms seqno (Function.update occur i (occur i + 1))).entries := by
    apply ext_getElem?
    intro j
    rw [getElem?_modify]
    dsimp only [setOf]
    simp only [getElem?_mapIdx]
    cases entry : terms[j]? with
    | none => rfl
    | some term =>
      by_cases same : i = j
      · subst same
        rw [entry, update_self]
        simp [Term.entry]
      · rw [update_of_ne (Ne.symm same)]
        simp [same]
  constructor
  · rintro ⟨_, ⟨fits, rfl⟩, rfl⟩
    exact ⟨fits, by rw [counted]; rfl⟩
  · rintro ⟨fits, rfl⟩
    exact ⟨_, ⟨fits, rfl⟩, by rw [counted]; rfl⟩

/-- `calc_1` sets the counts back. -/
theorem setOf_reset (terms : List Term) (lastPos : CInt) (occur : Nat → Int) :
    (setOf terms lastPos occur).entries.map (fun ti => { ti with localOccur := 0 }) =
      (setOf terms lastPos fun _ => 0).entries := by
  rw [setOf, setOf]
  apply ext_getElem?
  intro i
  simp only [getElem?_map, getElem?_mapIdx, Option.map_map]
  rfl

theorem occurrences_append (own : List Occurrence) (seqno : CInt) (i : Nat) :
    occurrences (own ++ [(seqno, i)]) =
      Function.update (occurrences own) i (occurrences own i + 1) := by
  funext j
  rw [occurrences, countP_append, countP_singleton]
  by_cases same : i = j
  · subst same
    rw [update_self, if_pos (decide_eq_true rfl)]
    rfl
  · rw [update_of_ne (Ne.symm same), if_neg (by simpa using same)]
    rfl

theorem lastSeqno_append (own : List Occurrence) (seqno : CInt) (i : Nat) :
    lastSeqno (own ++ [(seqno, i)]) = seqno := by
  rw [lastSeqno, getLast?_concat]
  rfl

theorem total_zero (terms : List Term) (lastPos : CInt) :
    total (setOf terms lastPos fun _ => 0).entries = 0 := by
  refine sum_eq_zero fun part member => ?_
  obtain ⟨ti, ti_mem, rfl⟩ := mem_map.mp member
  obtain ⟨i, lt, rfl⟩ := mem_mapIdx.mp ti_mem
  exact if_neg fun counted => counted.2 rfl

/-- The set stands for the occurrences of the record, as far as a term is ranked. -/
def StandsFor (terms : List Term) (lastPos : CInt) (occur : Nat → Int) (own : List Occurrence) :
    Prop :=
  terms.countP Term.ranked ≠ 0 →
    occur = occurrences own ∧ (own ≠ [] → lastPos = lastSeqno own)

theorem StandsFor.nil (terms : List Term) (lastPos : CInt) :
    StandsFor terms lastPos (fun _ => 0) [] :=
  fun _ => ⟨rfl, fun ne => absurd rfl ne⟩

variable {own : List Occurrence} {lastPos : CInt}

theorem StandsFor.append (standsFor : StandsFor terms lastPos occur own) (seqno : CInt) (i : Nat) :
    StandsFor terms seqno (Function.update occur i (occur i + 1)) (own ++ [(seqno, i)]) := by
  intro ranked
  rw [(standsFor ranked).1, occurrences_append, lastSeqno_append]
  exact ⟨rfl, fun _ => rfl⟩

/-- The sum divided by the divisor is that of the record: without occurrences the last position
does not matter. -/
theorem StandsFor.score (standsFor : StandsFor terms lastPos occur own)
    (ranked : terms.countP Term.ranked ≠ 0) :
    min ((total (setOf terms lastPos occur).entries).tdiv
      (setOf terms lastPos occur).divisor) 1000 =
      recordScore terms own := by
  have ranked' : ((terms.countP Term.ranked : Nat) : Int) ≠ 0 := by omega
  obtain ⟨rfl, last⟩ := standsFor ranked
  refine Eq.trans ?_ (if_neg ranked').symm
  cases own with
  | nil =>
    change min ((total (setOf terms lastPos fun _ => 0).entries).tdiv _) 1000 =
      min ((total (setOf terms _ fun _ => 0).entries).tdiv _) 1000
    rw [total_zero, total_zero, Int.zero_tdiv, Int.zero_tdiv]
  | cons occurrence own => rw [last (cons_ne_nil _ _)]

/-- A calculation in a run: the score is in range if and only if the condition is met. -/
theorem calc1_setOf (standsFor : StandsFor terms lastPos occur own)
    (ranked : terms.countP Term.ranked ≠ 0) {si' : SetInfo} {score : Int} :
    (calc1 (setOf terms lastPos occur) = some (si', score) ∧ 0 ≤ score) ↔
      Moderate (setOf terms lastPos occur) ∧ si' = (setOf terms lastPos fun _ => 0) ∧
        score = recordScore terms own := by
  have some_term : 0 < (terms.length : Int) := by
    have := countP_le_length (p := Term.ranked) (l := terms)
    omega
  have some_ranked : 0 < ((terms.countP Term.ranked : Nat) : Int) := by omega
  rw [calc1_eq_some some_term some_ranked, setOf_reset, standsFor.score ranked]
  rfl

/-- From a set that stands for its record on, the scores are in range if and only if the calls meet
the condition. -/
theorem inRange_iff (standsFor : StandsFor terms lastPos occur own) (calls : List Call) :
    InRange terms (setOf terms lastPos occur) own calls ↔
      AllSound (setOf terms lastPos occur) calls := by
  induction calls generalizing lastPos occur own with
  | nil => exact Iff.rfl
  | cons call calls ih =>
    rw [AllSound]
    cases call with
    | add seqno term =>
      rw [InRange]
      cases term with
      | none =>
        rw [Option.toList_none, map_nil, append_nil]
        constructor
        · rintro ⟨_, run, rest⟩
          cases run
          refine ⟨trivial, fun si' run => ?_⟩
          cases run
          exact (ih standsFor).mp rest
        · exact fun sound => ⟨_, rfl, (ih standsFor).mpr (sound.2 _ rfl)⟩
      | some i =>
        have rest := ih (standsFor.append seqno i)
        simp only [Call.run, add_setOf]
        constructor
        · rintro ⟨_, ⟨sound, rfl⟩, inRange⟩
          refine ⟨sound, ?_⟩
          rintro _ ⟨-, rfl⟩
          exact rest.mp inRange
        · rintro ⟨sound, after⟩
          exact ⟨_, ⟨sound, rfl⟩, rest.mpr (after _ ⟨sound, rfl⟩)⟩
    | calc1 =>
      rw [InRange, Call.Sound]
      by_cases ranked : terms.countP Term.ranked = 0
      · have ranked' : (setOf terms lastPos occur).noRankEntries = 0 := by
          rw [setOf, ranked]
          rfl
        have run : calc1 (setOf terms lastPos occur) = some (setOf terms lastPos occur, -1) :=
          if_pos ranked'
        have own_score : recordScore terms own = -1 := if_pos (by rw [setOf, ranked]; rfl)
        have standsFor' : StandsFor terms lastPos occur [] := fun ne => absurd ranked ne
        have rest := ih standsFor'
        simp only [Call.run, run, Option.map_some, Option.some.injEq, Prod.mk.injEq, own_score,
          if_pos ranked]
        constructor
        · rintro ⟨_, _, ⟨rfl, rfl⟩, -, -, inRange⟩
          refine ⟨.inl ranked', ?_⟩
          rintro _ rfl
          exact rest.mp inRange
        · rintro ⟨-, after⟩
          exact ⟨_, _, ⟨rfl, rfl⟩, rfl, rfl, rest.mpr (after _ rfl)⟩
      · have ranked' : (setOf terms lastPos occur).noRankEntries ≠ 0 := by
          rw [setOf]
          dsimp only
          omega
        have rest := ih (StandsFor.nil terms lastPos)
        simp only [if_neg ranked]
        constructor
        · rintro ⟨si', score, run, ⟨nonneg, -⟩, -, inRange⟩
          obtain ⟨moderate, rfl, rfl⟩ := (calc1_setOf standsFor ranked).mp ⟨run, nonneg⟩
          refine ⟨.inr moderate, ?_⟩
          intro si'' run'
          rw [Call.run, run] at run'
          cases run'
          exact rest.mp inRange
        · rintro ⟨moderate, after⟩
          have moderate := moderate.resolve_left ranked'
          obtain ⟨run, nonneg⟩ := (calc1_setOf standsFor ranked).mpr ⟨moderate, rfl, rfl⟩
          refine ⟨_, _, run, ⟨nonneg, ?_⟩, rfl, rest.mpr (after _ ?_)⟩
          · rw [recordScore, if_neg]
            · exact min_le_right ..
            · exact ranked'
          · rw [Call.run, run]
            rfl

/-- In every run all scores are in range, and those of their records alone, if and only if every
addition leaves the count of its term an `int`, and at every calculation with ranked terms the
products, their sums and the divisor are `int`s and the sum is greater than the divisor below 0. -/
theorem scores_inRange_iff (terms : List Term) (garbage : CInt) (calls : List Call) :
    InRange terms (setBegin garbage terms) [] calls ↔ AllSound (setBegin garbage terms) calls := by
  rw [setBegin_eq]
  exact inRange_iff (StandsFor.nil terms garbage) calls

/-- One occurrence of a term that 2^34 records have: its inverse is negative, and so is the
score. -/
theorem not_scores_inRange : ¬ ∀ (terms : List Term) (garbage : CInt) (calls : List Call),
    (∀ term ∈ terms, 0 ≤ term.count ∧ term.count ≤ 2 ^ 62) →
      InRange terms (setBegin garbage terms) [] calls := by
  intro all
  have inRange := all [⟨[114, 97, 110, 107, 44], 2 ^ 34⟩] ⟨0, by decide⟩
    [.add ⟨1, by decide⟩ (some 0), .calc1] (by decide)
  obtain ⟨si, added, si', score, run, ⟨nonneg, -⟩, -⟩ := inRange
  cases added
  have negative : score = -68 := (congrArg Prod.snd (Option.some.inj run)).symm
  omega

end Zebra.Rank
