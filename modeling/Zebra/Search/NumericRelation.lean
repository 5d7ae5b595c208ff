import Zebra.Dfa.Spelling
import Zebra.Dfa.Unambiguous
import Zebra.Lib.Decimal

/-!
# Numeric relations

`gen_regular_rel` and `numeric_relation` of `rpnsearch.c`: the numbers on one side of a value as a
regular expression.  It has an alternative for every digit that may be the first to differ from the
value's, and one for all numerals that are shorter or longer.
-/

namespace Zebra.Search

open List Dfa Decimal
open Bool (false_eq_true)

def chars (s : String) : List Nat := s.toList.map Char.toNat

/-- What `%d` prints. -/
def printInt (v : Int) : List Nat :=
  if v < 0 then 45 :: decimal v.natAbs else decimal v.natAbs

/-- `[0-9]` -/
def anyDigit : List Nat := [91, 48, 45, 57, 93]

/-- The digits up to `d`, or from `d` on. -/
def digitClass (islt : Bool) (d : Nat) : List Nat :=
  if islt then
    if d ≠ 48 then [91, 48, 45, d, 93] else [d]
  else
    if d ≠ 57 then [91, d, 45, 57, 93] else [d]

/-- A round of the loop over the digits, from the last one. -/
def genAlternative (numstr : List Nat) (islt : Bool) (pos : Nat) : List Nat :=
  let w := numstr.length - 1 - pos
  let d := numstr.getD w 0
  -- behind the last digit only the digits that differ remain, and there may be none
  if 0 < pos ∧ d = (if islt then 48 else 57) then []
  else
    let d := if 0 < pos then (if islt then d - 1 else d + 1) else d
    numstr.take w ++ digitClass islt d ++ (replicate pos anyDigit).flatten ++ [124]

/-- All numerals that are shorter, or all that are longer. -/
def genLengths (islt : Bool) (pos : Nat) : List Nat :=
  if islt then [48, 42] ++ (replicate (pos - 1) (anyDigit ++ [63])).flatten
  else (replicate (pos + 1) anyDigit).flatten ++ (anyDigit ++ [42])

/-- The loop and what is behind it, for the digits of a value. -/
def genDigits (numstr : List Nat) (islt : Bool) : List Nat :=
  (List.range numstr.length).flatMap (genAlternative numstr islt) ++
    genLengths islt numstr.length

def genRegularRel (val : Int) (islt : Bool) : List Nat :=
  if 0 ≤ val then
    (if islt then chars "(-[0-9]+|(" else chars "((") ++ genDigits (printInt val) islt ++ chars "))"
  else
    -- the value of a negative number may not fit
    let negated := (-val).bmod (2 ^ 32)
    (if islt then chars "(-(" else chars "([0-9]+|-(") ++ genDigits (printInt negated) (!islt) ++
      chars "))"

/-- The branches of `numeric_relation`: what is searched for, by the relation attribute and the
`atoi` of the term. -/
def numericRelation (relation termValue : Int) : Option (List Nat) :=
  if relation = 1 then some (genRegularRel ((termValue - 1).bmod (2 ^ 32)) true)
  else if relation = 2 then some (genRegularRel termValue true)
  else if relation = 4 then some (genRegularRel termValue false)
  else if relation = 5 then some (genRegularRel ((termValue + 1).bmod (2 ^ 32)) false)
  else if relation = 3 ∨ relation = 102 ∨ relation = -1 then
    some (chars "(0*" ++ printInt termValue ++ chars ")")
  else none

/-- A pattern that matches the numerals of the numbers with `P`, and no others. -/
def Selects (anyset : BSet) (pattern : List Nat) (P : Int → Prop) : Prop :=
  (∃ l, PatternDenotes anyset pattern l) ∧
    ∀ l, PatternDenotes anyset pattern l → ∀ n, text (printInt n) ∈ l ↔ P n

example : genRegularRel 120 true =
    chars "(-[0-9]+|(120|1[0-1][0-9]|0[0-9][0-9]|0*[0-9]?[0-9]?))" := by decide

/-- Whether the digit `c` lies on the side of `d` that is searched. -/
def Past (islt : Bool) (d c : Nat) : Prop := if islt then c < d else d < c

/-- The texts of the alternative for a digit: the digits before it, one past it and any behind
it. -/
def AtDigit (numstr : List Nat) (islt : Bool) (pos : Nat) (s : List Nat) : Prop :=
  ∃ p d t c b, numstr = p ++ d :: t ∧ t.length = pos ∧ s = p ++ c :: b ∧ IsDigit c ∧
    (Past islt d c ∨ pos = 0 ∧ c = d) ∧ b.length = pos ∧ Digits b

def OfLength (islt : Bool) (pos : Nat) (s : List Nat) : Prop :=
  if islt then ∃ a b, s = a ++ b ∧ (∀ c ∈ a, c = 48) ∧ b.length ≤ pos - 1 ∧ Digits b
  else pos + 1 ≤ s.length ∧ Digits s

variable {anyset : BSet} {numstr : List Nat} {islt : Bool} {d pos : Nat}

theorem plain_digit (digit : IsDigit d) : Plain d := by
  obtain ⟨low, high⟩ := digit
  interval_cases d <;> decide

theorem part_anyDigit : Part anyset .atom anyDigit fun s => ∃ c, IsDigit c ∧ s = [c] :=
  Part.range (by decide) (by decide) (by decide)

theorem part_digitClass (digit : IsDigit d) : Part anyset .atom (digitClass islt d)
    fun s => ∃ c, (IsDigit c ∧ if islt then c ≤ d else d ≤ c) ∧ s = [c] := by
  obtain ⟨low, high⟩ := digit
  have plain := plain_digit ⟨low, high⟩
  rw [digitClass]
  cases islt with
  | true =>
    simp only [if_true]
    split
    next =>
      have range := @Part.range anyset 48 d (by decide) ⟨plain, by omega⟩ low
      refine range.congr fun s => exists_congr fun c => and_congr_left fun _ => ?_
      exact ⟨fun within => ⟨⟨within.1, by omega⟩, within.2⟩, fun within => ⟨within.1.1, within.2⟩⟩
    next only =>
      refine (Part.char plain).congr fun s => ⟨fun same => ⟨d, ⟨⟨low, high⟩, le_rfl⟩, same⟩, ?_⟩
      rintro ⟨c, ⟨⟨c_low, -⟩, le⟩, rfl⟩
      rw [show c = d by omega]
  | false =>
    simp only [false_eq_true, if_false]
    split
    next =>
      have range := @Part.range anyset d 57 ⟨plain, by omega⟩ (by decide) high
      refine range.congr fun s => exists_congr fun c => and_congr_left fun _ => ?_
      exact ⟨fun within => ⟨⟨by omega, within.2⟩, within.1⟩, fun within => ⟨within.2, within.1.2⟩⟩
    next only =>
      refine (Part.char plain).congr fun s => ⟨fun same => ⟨d, ⟨⟨low, high⟩, le_rfl⟩, same⟩, ?_⟩
      rintro ⟨c, ⟨⟨-, c_high⟩, le⟩, rfl⟩
      rw [show c = d by omega]

/-- A digit in front of as many as there are behind it. -/
theorem exists_digit (inside : pos < numstr.length) :
    ∃ p d t, numstr = p ++ d :: t ∧ t.length = pos ∧ p = numstr.take (numstr.length - 1 - pos) ∧
      numstr.getD (numstr.length - 1 - pos) 0 = d := by
  have bound : numstr.length - 1 - pos < numstr.length := by omega
  refine ⟨numstr.take (numstr.length - 1 - pos), numstr[numstr.length - 1 - pos],
    numstr.drop (numstr.length - 1 - pos + 1), ?_, ?_, rfl, ?_⟩
  · rw [getElem_cons_drop, take_append_drop]
  · rw [length_drop]
    omega
  · exact getD_eq_getElem _ _ bound

theorem part_genAlternative (digits : Digits numstr) (inside : pos < numstr.length) :
    genAlternative numstr islt pos = [] ∧ (∀ s, ¬ AtDigit numstr islt pos s) ∨
      ∃ p, genAlternative numstr islt pos = p ++ [124] ∧
        Part anyset .alternatives p (AtDigit numstr islt pos) := by
  obtain ⟨p, d, t, whole, length, front, here⟩ := exists_digit inside
  have digits := forall_mem_append.mp (whole ▸ digits)
  have digit : IsDigit d := digits.2 d mem_cons_self
  have same : ∀ p' d' t', numstr = p' ++ d' :: t' → t'.length = pos → p' = p ∧ d' = d := by
    intro p' d' t' whole' length'
    obtain ⟨rfl, rest⟩ := append_inj' (whole'.symm.trans whole) (by simp [length, length'])
    exact ⟨rfl, (cons.inj rest).1⟩
  simp only [genAlternative, here, ← front]
  by_cases last : 0 < pos ∧ d = if islt then 48 else 57
  · rw [if_pos last]
    refine .inl ⟨rfl, ?_⟩
    rintro s ⟨p', d', t', c, b, whole', length', -, ⟨low, high⟩, past | ⟨zero, -⟩, -⟩
    · obtain ⟨-, rfl⟩ := same p' d' t' whole' length'
      rw [Past] at past
      cases islt with
      | true => simp only [if_true] at past last; omega
      | false => simp only [false_eq_true, if_false] at past last; omega
    · omega
  · rw [if_neg last]
    refine .inr ⟨_, rfl, ?_⟩
    generalize bound : (if 0 < pos then if islt then d - 1 else d + 1 else d) = d'
    have sides : IsDigit d' ∧ ∀ c, (IsDigit c ∧ if islt then c ≤ d' else d' ≤ c) ↔
        IsDigit c ∧ (Past islt d c ∨ pos = 0 ∧ c = d) := by
      obtain ⟨low, high⟩ := digit
      cases islt with
      | true =>
        simp only [if_true, Past, IsDigit] at *
        split at bound <;> exact ⟨by omega, fun c => by omega⟩
      | false =>
        simp only [false_eq_true, if_false, Past, IsDigit] at *
        split at bound <;> exact ⟨by omega, fun c => by omega⟩
    have plain : ∀ c ∈ p, Plain c := fun c member => plain_digit (digits.1 c member)
    have part := ((@part_digitClass anyset islt d' sides.1).atom.repeated.behind plain).times pos
      (@part_anyDigit anyset)
    refine (part.factors).congr fun s => ?_
    constructor
    · rintro ⟨_, b, rfl, ⟨_, rfl, c, within, rfl⟩, length', all⟩
      obtain ⟨is, past⟩ := (sides.2 c).mp within
      exact ⟨p, d, t, c, b, whole, length, by simp, is, past, length', all⟩
    · rintro ⟨p', d'', t', c, b, whole', length', rfl, is, past, length'', all⟩
      obtain ⟨rfl, rfl⟩ := same p' d'' t' whole' length'
      exact ⟨p' ++ [c], b, by simp, ⟨[c], rfl, c, (sides.2 c).mpr ⟨is, past⟩, rfl⟩, length'', all⟩

theorem part_genLengths (positive : 0 < pos) :
    Part anyset .alternatives (genLengths islt pos) (OfLength islt pos) := by
  cases islt with
  | true =>
    have zeros : Part anyset .atom [48] fun s => ∃ c, c = 48 ∧ s = [c] :=
      (Part.char (by decide)).congr fun s => by simp
    exact (zeros.clos0.repeated.upTo (pos - 1) part_anyDigit).factors.congr fun s => Iff.rfl
  | false =>
    have empty : Part anyset .factors anyDigit fun s => ∃ c, IsDigit c ∧ s = [c] :=
      part_anyDigit.atom.repeated
    have part := ((empty.times pos part_anyDigit).append part_anyDigit.clos0.repeated).factors
    have spelled : genLengths false pos =
        anyDigit ++ (replicate pos anyDigit).flatten ++ (anyDigit ++ [42]) := by
      rw [genLengths, if_neg (by decide), replicate_succ, flatten_cons]
    rw [spelled]
    refine part.congr fun s => ?_
    simp only [OfLength, false_eq_true, if_false]
    constructor
    · rintro ⟨_, b, rfl, ⟨_, a, rfl, ⟨c, is, rfl⟩, length, all⟩, rest⟩
      refine ⟨?_, Digits.append (Digits.append ?_ all) rest⟩
      · simp only [length_append, length_singleton]
        omega
      · exact forall_mem_singleton.mpr is
    · rintro ⟨long, all⟩
      obtain ⟨c, s, rfl⟩ := exists_cons_of_length_pos (by omega : 0 < s.length)
      obtain ⟨is, all⟩ := all.cons
      rw [length_cons] at long
      refine ⟨c :: s.take pos,
        s.drop pos, by simp, ⟨[c], s.take pos, rfl, ⟨c, is, rfl⟩, ?_, ?_⟩, ?_⟩
      · rw [length_take]
        omega
      · exact fun c member => all c (mem_of_mem_take member)
      · exact fun c member => all c (mem_of_mem_drop member)

theorem part_genDigits (digits : Digits numstr) (some : numstr ≠ []) :
    Part anyset .alternatives (genDigits numstr islt) fun s =>
      (∃ pos ∈ range numstr.length, AtDigit numstr islt pos s) ∨
        OfLength islt numstr.length s :=
  Part.anyOf _ (fun _ member => part_genAlternative digits (mem_range.mp member))
    (part_genLengths (length_pos_of_ne_nil some))

variable {s : List Nat}

theorem past_iff (digits : Digits numstr) (digits' : Digits s) (same : s.length = numstr.length) :
    (if islt then value s < value numstr else value numstr < value s) ↔
      ∃ p d t c b, numstr = p ++ d :: t ∧ s = p ++ c :: b ∧ Past islt d c := by
  cases islt with
  | true =>
    simp only [if_true, Past]
    rw [value_lt_iff digits' digits same]
    constructor
    · rintro ⟨p, c, d, b, t, whole, whole', less⟩
      exact ⟨p, d, t, c, b, whole', whole, less⟩
    · rintro ⟨p, d, t, c, b, whole, whole', less⟩
      exact ⟨p, c, d, b, t, whole', whole, less⟩
  | false =>
    simp only [false_eq_true, if_false, Past]
    rw [value_lt_iff digits digits' same.symm]
    constructor
    · rintro ⟨p, d, c, t, b, whole, whole', less⟩
      exact ⟨p, d, t, c, b, whole, whole', less⟩
    · rintro ⟨p, d, t, c, b, whole, whole', less⟩
      exact ⟨p, d, c, t, b, whole, whole', less⟩

/-- The alternatives for digits take the numerals of the length on the side of the value. -/
theorem atDigit_iff (digits : Digits numstr) (some : numstr ≠ []) :
    (∃ pos ∈ range numstr.length, AtDigit numstr islt pos s) ↔
      Digits s ∧ s.length = numstr.length ∧
        ((if islt then value s < value numstr else value numstr < value s) ∨ s = numstr) := by
  constructor
  · rintro ⟨pos, -, p, d, t, c, b, whole, length, rfl, is, past, length', all⟩
    have same : (p ++ c :: b).length = numstr.length := by
      rw [whole]
      simp [length, length']
    have all : Digits (p ++ c :: b) := by
      have front := (forall_mem_append.mp (whole ▸ digits)).1
      exact Digits.append front (forall_mem_cons.mpr ⟨is, all⟩)
    refine ⟨all, same, past.imp (fun past => ?_) ?_⟩
    · exact (past_iff digits all same).mpr ⟨p, d, t, c, b, whole, rfl, past⟩
    · rintro ⟨rfl, rfl⟩
      rw [whole, length_eq_zero_iff.mp length, length_eq_zero_iff.mp length']
  · rintro ⟨all, same, past | rfl⟩
    · obtain ⟨p, d, t, c, b, whole, rfl, differs⟩ := (past_iff digits all same).mp past
      have lengths := congrArg List.length whole
      rw [← same] at lengths
      simp only [length_append, length_cons] at lengths
      have rest := forall_mem_cons.mp (forall_mem_append.mp all).2
      refine ⟨t.length, mem_range.mpr ?_, p, d, t, c, b, whole, rfl, rfl, rest.1, .inl differs,
        by omega, rest.2⟩
      rw [whole, length_append, length_cons]
      omega
    · obtain ⟨p, d, rfl⟩ := (eq_nil_or_concat s).resolve_left some
      rw [concat_eq_append] at *
      have last := forall_mem_append.mp all
      exact ⟨0, by simp, p, d, [], d, [], rfl, rfl, rfl, last.2 d mem_cons_self,
        .inr ⟨rfl, rfl⟩, rfl, by simp [Digits]⟩

/-- A numeral that is not shorter and still has room for zeros is zero. -/
theorem eq_zero_of_ofLength (numeral : Canonical s) (positive : 0 < pos)
    (long : pos ≤ s.length) (length : OfLength true pos s) : s = [48] := by
  obtain ⟨a, b, rfl, zeros, short, -⟩ := length
  cases a with
  | nil =>
    rw [nil_append] at long
    omega
  | cons c a =>
    obtain rfl := zeros c mem_cons_self
    rw [cons_append, numeral.leading (a ++ b) rfl]

/-- The expression for the digits of a value matches the numerals on its side. -/
theorem genDigits_exact (canonical : Canonical numstr) (numeral : Canonical s) :
    ((∃ pos ∈ range numstr.length, AtDigit numstr islt pos s) ∨
        OfLength islt numstr.length s) ↔
      if islt then value s ≤ value numstr else value numstr ≤ value s := by
  rw [atDigit_iff canonical.digits canonical.ne_nil]
  have positive := length_pos_of_ne_nil canonical.ne_nil
  obtain shorter | same | longer := lt_trichotomy s.length numstr.length
  · have less := canonical.value_lt_of_length numeral.digits numeral.ne_nil shorter
    cases islt with
    | true =>
      simp only [if_true, OfLength]
      refine iff_of_true (.inr ⟨[], s, rfl, by simp, by omega, numeral.digits⟩) less.le
    | false =>
      simp only [false_eq_true, if_false, OfLength]
      refine iff_of_false ?_ less.not_ge
      rintro (⟨-, same, -⟩ | ⟨long, -⟩) <;> omega
  · have equal : s = numstr ↔ value s = value numstr :=
      ⟨congrArg value, eq_of_value numeral.digits canonical.digits same⟩
    have other : OfLength islt numstr.length s → if islt then value s ≤ value numstr
        else value numstr ≤ value s := by
      cases islt with
      | true =>
        intro length
        rw [eq_zero_of_ofLength numeral positive same.ge length]
        exact Nat.zero_le _
      | false =>
        rintro ⟨long, -⟩
        omega
    cases islt with
    | true =>
      simp only [if_true] at other ⊢
      rw [equal]
      constructor
      · rintro (⟨-, -, past⟩ | length)
        · exact past.elim le_of_lt le_of_eq
        · exact other length
      · exact fun le => .inl ⟨numeral.digits, same, le.lt_or_eq⟩
    | false =>
      simp only [false_eq_true, if_false] at other ⊢
      rw [equal]
      constructor
      · rintro (⟨-, -, past⟩ | length)
        · exact past.elim le_of_lt ge_of_eq
        · exact other length
      · exact fun le => .inl ⟨numeral.digits, same, le.lt_or_eq.imp_right Eq.symm⟩
  · have less := numeral.value_lt_of_length canonical.digits canonical.ne_nil longer
    cases islt with
    | true =>
      simp only [if_true]
      refine iff_of_false ?_ less.not_ge
      rintro (⟨-, same, -⟩ | length)
      · omega
      · have short := congrArg List.length (eq_zero_of_ofLength numeral positive longer.le length)
        rw [length_singleton] at short
        omega
    | false =>
      simp only [false_eq_true, if_false, OfLength]
      exact iff_of_true (.inr ⟨by omega, numeral.digits⟩) less.le

theorem printInt_of_nonneg {n : Int} (nonneg : 0 ≤ n) : printInt n = decimal n.natAbs :=
  if_neg nonneg.not_gt

theorem printInt_of_neg {n : Int} (neg : n < 0) : printInt n = 45 :: decimal n.natAbs :=
  if_pos neg

theorem decimal_ne_minus (n : Nat) (s : List Nat) : decimal n ≠ 45 :: s := by
  intro same
  have digit := (canonical_decimal n).digits 45 (same ▸ mem_cons_self)
  exact absurd digit.1 (by decide)

theorem digits_of_genDigits (digits : Digits numstr) (some : numstr ≠ [])
    (matched : (∃ pos ∈ range numstr.length, AtDigit numstr islt pos s) ∨
      OfLength islt numstr.length s) : Digits s := by
  obtain at_digit | length := matched
  · exact ((atDigit_iff digits some).mp at_digit).1
  · cases islt with
    | true =>
      obtain ⟨a, b, rfl, zeros, -, all⟩ := length
      exact Digits.append (fun c member => zeros c member ▸ ⟨le_rfl, by decide⟩) all
    | false => exact length.2

theorem exists_digitTexts (anyset : BSet) (islt : Bool) (v : Nat) :
    ∃ P, Part anyset .alternatives (genDigits (decimal v) islt) P ∧ (∀ s, ¬ P (45 :: s)) ∧
      ∀ n, P (decimal n) ↔ if islt then n ≤ v else v ≤ n := by
  have canonical := canonical_decimal v
  refine ⟨_, part_genDigits canonical.digits canonical.ne_nil, fun s matched => ?_, fun n => ?_⟩
  · have digit := digits_of_genDigits canonical.digits canonical.ne_nil matched 45
      mem_cons_self
    exact absurd digit.1 (by decide)
  · rw [genDigits_exact canonical (canonical_decimal n), value_decimal, value_decimal]

theorem Selects.of_part {pattern : List Nat} {P : List Nat → Prop} {Q : Int → Prop}
    (part : Part anyset .alternatives pattern P) (same : ∀ n, P (printInt n) ↔ Q n) :
    Selects anyset pattern Q := by
  obtain ⟨l, denotes, texts⟩ := part.denotes
  refine ⟨⟨l, denotes⟩, fun l' denotes' n => ?_⟩
  rw [← denotes.unique denotes', texts, same]

/-- `[0-9]+` -/
theorem part_digits : Part anyset .factors (anyDigit ++ [43]) fun s => s ≠ [] ∧ Digits s :=
  part_anyDigit.clos1.repeated

theorem plain_minus : ∀ c ∈ [45], Plain c := by decide

theorem digits_ne_nil (n : Nat) : decimal n ≠ [] ∧ Digits (decimal n) :=
  ⟨(canonical_decimal n).ne_nil, (canonical_decimal n).digits⟩

variable {val : Int}

theorem selects_le (nonneg : 0 ≤ val) : Selects anyset (genRegularRel val true) (· ≤ val) := by
  obtain ⟨P, part, unsigned, numerals⟩ := exists_digitTexts anyset true val.natAbs
  have spelled : genRegularRel val true = [40] ++ (([45] ++ (anyDigit ++ [43])) ++ [124] ++
      ([40] ++ genDigits (decimal val.natAbs) true ++ [41])) ++ [41] := by
    rw [genRegularRel, if_pos nonneg, if_pos rfl, printInt_of_nonneg nonneg]
    simp [chars, anyDigit]
  have negative := (@part_digits anyset).behind plain_minus
  rw [spelled]
  apply Selects.of_part
    (negative.factors.or part.group.atom.repeated.factors).group.atom.repeated.factors
  intro n
  obtain neg | nonneg' := lt_or_ge n 0
  · rw [printInt_of_neg neg]
    exact iff_of_true (.inl ⟨decimal n.natAbs, rfl, digits_ne_nil _⟩) (by omega)
  · rw [printInt_of_nonneg nonneg', or_iff_right, numerals]
    · simp only [if_true]
      omega
    · rintro ⟨s, same, -⟩
      exact decimal_ne_minus _ s same

theorem selects_ge (nonneg : 0 ≤ val) : Selects anyset (genRegularRel val false) (val ≤ ·) := by
  obtain ⟨P, part, unsigned, numerals⟩ := exists_digitTexts anyset false val.natAbs
  have spelled : genRegularRel val false =
      [40] ++ ([40] ++ genDigits (decimal val.natAbs) false ++ [41]) ++ [41] := by
    rw [genRegularRel, if_pos nonneg, if_neg (by decide), printInt_of_nonneg nonneg]
    simp [chars]
  rw [spelled]
  apply Selects.of_part part.group.atom.repeated.factors.group.atom.repeated.factors
  intro n
  obtain neg | nonneg' := lt_or_ge n 0
  · rw [printInt_of_neg neg]
    exact iff_of_false (unsigned _) (by omega)
  · rw [printInt_of_nonneg nonneg', numerals]
    simp only [false_eq_true, if_false]
    omega

theorem bmod_neg (low : -2 ^ 31 < val) (neg : val < 0) : (-val).bmod (2 ^ 32) = -val := by
  apply Int.bmod_eq_of_le <;> omega

theorem printInt_neg (neg : val < 0) : printInt (-val) = decimal val.natAbs := by
  rw [printInt_of_nonneg (by omega), Int.natAbs_neg]

theorem selects_le_neg (low : -2 ^ 31 < val) (neg : val < 0) :
    Selects anyset (genRegularRel val true) (· ≤ val) := by
  obtain ⟨P, part, unsigned, numerals⟩ := exists_digitTexts anyset false val.natAbs
  have spelled : genRegularRel val true =
      [40] ++ ([45] ++ ([40] ++ genDigits (decimal val.natAbs) false ++ [41])) ++ [41] := by
    simp only [genRegularRel, if_neg neg.not_ge, bmod_neg low neg, printInt_neg neg]
    simp [chars]
  have negative := part.group.atom.repeated.behind plain_minus
  rw [spelled]
  apply Selects.of_part negative.factors.group.atom.repeated.factors
  intro n
  obtain neg' | nonneg := lt_or_ge n 0
  · rw [printInt_of_neg neg']
    constructor
    · rintro ⟨s, same, matched⟩
      obtain rfl : decimal n.natAbs = s := (cons.inj same).2
      rw [numerals] at matched
      simp only [false_eq_true, if_false] at matched
      omega
    · intro le
      refine ⟨_, rfl, (numerals _).mpr ?_⟩
      simp only [false_eq_true, if_false]
      omega
  · rw [printInt_of_nonneg nonneg]
    refine iff_of_false ?_ (by omega)
    rintro ⟨s, same, -⟩
    exact decimal_ne_minus _ s same

theorem selects_ge_neg (low : -2 ^ 31 < val) (neg : val < 0) :
    Selects anyset (genRegularRel val false) (val ≤ ·) := by
  obtain ⟨P, part, unsigned, numerals⟩ := exists_digitTexts anyset true val.natAbs
  have spelled : genRegularRel val false = [40] ++ ((anyDigit ++ [43]) ++ [124] ++
      ([45] ++ ([40] ++ genDigits (decimal val.natAbs) true ++ [41]))) ++ [41] := by
    simp only [genRegularRel, if_neg neg.not_ge, bmod_neg low neg, printInt_neg neg]
    simp [chars, anyDigit]
  have negative := part.group.atom.repeated.behind plain_minus
  rw [spelled]
  apply Selects.of_part (part_digits.factors.or negative.factors).group.atom.repeated.factors
  intro n
  obtain neg' | nonneg := lt_or_ge n 0
  · rw [printInt_of_neg neg', or_iff_right]
    · constructor
      · rintro ⟨s, same, matched⟩
        obtain rfl : decimal n.natAbs = s := (cons.inj same).2
        rw [numerals] at matched
        simp only [if_true] at matched
        omega
      · intro le
        refine ⟨_, rfl, (numerals _).mpr ?_⟩
        simp only [if_true]
        omega
    · rintro ⟨-, digits⟩
      exact absurd (digits 45 mem_cons_self).1 (by decide)
  · rw [printInt_of_nonneg nonneg]
    exact iff_of_true (.inl (digits_ne_nil _)) (by omega)

def InRelation (relation termValue n : Int) : Prop :=
  if relation = 1 then n < termValue
  else if relation = 2 then n ≤ termValue
  else if relation = 4 then termValue ≤ n
  else termValue < n

/-- The value that the expression of a relation is made for. -/
def border (relation termValue : Int) : Int :=
  if relation = 1 then termValue - 1 else if relation = 5 then termValue + 1 else termValue

/-- The expression matches exactly the numerals on its side of the value, and each relation selects
exactly the terms in its range, for every value that has an opposite. -/
theorem numeric_relation_exact (anyset : BSet) :
    (∀ val : Int, -2 ^ 31 < val → val < 2 ^ 31 →
      Selects anyset (genRegularRel val true) (· ≤ val) ∧
      Selects anyset (genRegularRel val false) (val ≤ ·)) ∧
    ∀ relation termValue : Int, relation ∈ [1, 2, 4, 5] →
      -2 ^ 31 < border relation termValue → border relation termValue < 2 ^ 31 →
      ∃ pattern, numericRelation relation termValue = some pattern ∧
        Selects anyset pattern (InRelation relation termValue) := by
  have exact : ∀ val : Int, -2 ^ 31 < val → val < 2 ^ 31 →
      Selects anyset (genRegularRel val true) (· ≤ val) ∧
      Selects anyset (genRegularRel val false) (val ≤ ·) := by
    intro val low high
    obtain neg | nonneg := lt_or_ge val 0
    · exact ⟨selects_le_neg low neg, selects_ge_neg low neg⟩
    · exact ⟨selects_le nonneg, selects_ge nonneg⟩
  refine ⟨exact, fun relation termValue member low high => ?_⟩
  have sides := exact _ low high
  have fits : (border relation termValue).bmod (2 ^ 32) = border relation termValue := by
    apply Int.bmod_eq_of_le <;> omega
  simp only [mem_cons, not_mem_nil, or_false] at member
  obtain rfl | rfl | rfl | rfl := member
  · have fits : (termValue - 1).bmod (2 ^ 32) = termValue - 1 := fits
    have same : InRelation 1 termValue = (· ≤ termValue - 1) := by
      funext n
      exact propext Int.le_sub_one_iff.symm
    refine ⟨_, rfl, ?_⟩
    rw [fits, same]
    exact sides.1
  · exact ⟨_, rfl, sides.1⟩
  · exact ⟨_, rfl, sides.2⟩
  · have fits : (termValue + 1).bmod (2 ^ 32) = termValue + 1 := fits
    have same : InRelation 5 termValue = (termValue + 1 ≤ ·) := by
      funext n
      exact propext Int.add_one_le_iff.symm
    refine ⟨_, rfl, ?_⟩
    rw [fits, same]
    exact sides.2

theorem numeric_relation_exact_some (anyset : BSet) :
    Selects anyset (genRegularRel 120 true) (· ≤ 120) ∧
      ∃ pattern, numericRelation 1 (-4) = some pattern ∧
        Selects anyset pattern (InRelation 1 (-4)) :=
  ⟨((numeric_relation_exact anyset).1 120 (by decide) (by decide)).1,
    (numeric_relation_exact anyset).2 1 (-4) (by decide) (by decide) (by decide)⟩

end Zebra.Search
