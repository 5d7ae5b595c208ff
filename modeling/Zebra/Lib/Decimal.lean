import Mathlib.Data.Nat.Digits.Lemmas

/-!
# Decimal numerals

Strings of digits and their values: strings of one length are ordered by the first place where they
differ, and a numeral without leading zeros is greater than any shorter one.
-/

namespace Zebra.Decimal

open List

/-- `'0'` to `'9'` -/
def IsDigit (c : Nat) : Prop := 48 ≤ c ∧ c ≤ 57

def Digits (s : List Nat) : Prop := ∀ c ∈ s, IsDigit c

def value : List Nat → Nat
  | [] => 0
  | c :: s => (c - 48) * 10 ^ s.length + value s

/-- The digits of a number, as `%d` prints it. -/
def decimal (n : Nat) : List Nat :=
  if n = 0 then [48] else ((Nat.digits 10 n).map (· + 48)).reverse

/-- Digits without leading zeros. -/
structure Canonical (s : List Nat) : Prop where
  digits : Digits s
  ne_nil : s ≠ []
  leading : ∀ rest, s = 48 :: rest → rest = []

theorem Digits.cons {c : Nat} {s : List Nat} (digits : Digits (c :: s)) : IsDigit c ∧ Digits s :=
  forall_mem_cons.mp digits

variable {s t : List Nat}

theorem Digits.append (first : Digits s) (second : Digits t) : Digits (s ++ t) :=
  forall_mem_append.mpr ⟨first, second⟩

theorem value_append (s t : List Nat) : value (s ++ t) = value s * 10 ^ t.length + value t := by
  induction s with
  | nil => simp [value]
  | cons c s ih =>
    rw [cons_append, value, value, ih, length_append, pow_add]
    ring

theorem value_lt (digits : Digits s) : value s < 10 ^ s.length := by
  induction s with
  | nil => exact Nat.one_pos
  | cons c s ih =>
    obtain ⟨⟨-, high⟩, rest⟩ := digits.cons
    have lower := ih rest
    have first : (c - 48) * 10 ^ s.length ≤ 9 * 10 ^ s.length :=
      Nat.mul_le_mul_right _ (by omega)
    rw [value, length_cons, pow_succ]
    omega

theorem value_reverse (digits : List Nat) :
    value (digits.map (· + 48)).reverse = Nat.ofDigits 10 digits := by
  induction digits with
  | nil => rfl
  | cons d digits ih =>
    rw [map_cons, reverse_cons, value_append, ih, Nat.ofDigits_cons]
    simp [value]
    ring

theorem value_decimal (n : Nat) : value (decimal n) = n := by
  rw [decimal]
  split
  next zero => exact zero ▸ rfl
  next => rw [value_reverse, Nat.ofDigits_digits]

theorem canonical_decimal (n : Nat) : Canonical (decimal n) := by
  rw [decimal]
  split
  next =>
    refine ⟨?_, cons_ne_nil _ _, fun rest same => (List.cons.inj same).2.symm⟩
    exact forall_mem_cons.mpr ⟨⟨le_rfl, by decide⟩, by simp⟩
  next positive =>
    refine ⟨?_, ?_, fun rest same => ?_⟩
    · intro c member
      obtain ⟨d, at_, rfl⟩ := mem_map.mp (mem_reverse.mp member)
      have := Nat.digits_lt_base (by decide : 1 < 10) at_
      exact ⟨by omega, by omega⟩
    · simpa using Nat.digits_ne_nil_iff_ne_zero.mpr positive
    · have last := Nat.getLast_digit_ne_zero 10 positive
      have split : (Nat.digits 10 n).map (· + 48) = rest.reverse ++ [48] := by
        rw [← reverse_inj, same, reverse_append, reverse_reverse]
        rfl
      obtain ⟨front, back, whole, -, at_last⟩ := map_eq_append_iff.mp split
      obtain ⟨d, rfl, zero⟩ := map_eq_singleton_iff.mp at_last
      have zero : d = 0 := by omega
      simp only [whole, getLast_append_singleton] at last
      exact absurd zero last

/-- The first digit of a longer numeral counts for more than all shorter digits. -/
theorem Canonical.le_value (canonical : Canonical s) (long : 1 < s.length) :
    10 ^ (s.length - 1) ≤ value s := by
  cases s with
  | nil => exact absurd rfl canonical.ne_nil
  | cons c s =>
    have ⟨low, _⟩ := canonical.digits.cons.1
    have other : c ≠ 48 := by
      rintro rfl
      rw [canonical.leading s rfl] at long
      exact lt_irrefl _ long
    have first : 1 * 10 ^ s.length ≤ (c - 48) * 10 ^ s.length :=
      Nat.mul_le_mul_right _ (by omega)
    rw [value, length_cons, Nat.add_sub_cancel]
    omega

theorem Canonical.value_lt_of_length (canonical : Canonical t) (digits : Digits s)
    (some : s ≠ []) (shorter : s.length < t.length) : value s < value t := by
  have positive := length_pos_of_ne_nil some
  have less := value_lt digits
  have le := canonical.le_value (by omega)
  have mono : 10 ^ s.length ≤ 10 ^ (t.length - 1) := Nat.pow_le_pow_right (by decide) (by omega)
  omega

/-- Digits of one length are ordered by the first place where they differ. -/
theorem value_lt_iff (digits : Digits s) (digits' : Digits t) (same : s.length = t.length) :
    value s < value t ↔ ∃ p c d s' t', s = p ++ c :: s' ∧ t = p ++ d :: t' ∧ c < d := by
  induction s generalizing t with
  | nil =>
    obtain rfl := length_eq_zero_iff.mp same.symm
    exact iff_of_false (lt_irrefl _) (by simp)
  | cons c s ih =>
    cases t with
    | nil => simp at same
    | cons d t =>
      have same := Nat.succ.inj same
      obtain ⟨⟨c_low, -⟩, rest⟩ := digits.cons
      obtain ⟨⟨d_low, -⟩, rest'⟩ := digits'.cons
      have below := value_lt rest
      have below' := value_lt rest'
      have ih := ih rest rest' same
      rw [value, value, same]
      rw [same] at below
      generalize 10 ^ t.length = power at *
      constructor
      · intro less
        obtain order | rfl | order := lt_trichotomy c d
        · exact ⟨[], c, d, s, t, rfl, rfl, order⟩
        · obtain ⟨p, a, b, s', t', rfl, rfl, order⟩ := ih.mp (by omega)
          exact ⟨c :: p, a, b, s', t', rfl, rfl, order⟩
        · have more : (d - 48 + 1) * power ≤ (c - 48) * power :=
            Nat.mul_le_mul_right _ (by omega)
          rw [Nat.add_mul] at more
          omega
      · rintro ⟨p, a, b, s', t', whole, whole', order⟩
        cases p with
        | nil =>
          obtain ⟨rfl, rfl⟩ := List.cons.inj whole
          obtain ⟨rfl, rfl⟩ := List.cons.inj whole'
          have more : (c - 48 + 1) * power ≤ (d - 48) * power :=
            Nat.mul_le_mul_right _ (by omega)
          rw [Nat.add_mul] at more
          omega
        | cons first p =>
          obtain ⟨rfl, rfl⟩ := List.cons.inj whole
          obtain ⟨rfl, rfl⟩ := List.cons.inj whole'
          have := ih.mpr ⟨p, a, b, s', t', rfl, rfl, order⟩
          omega

theorem eq_of_value (digits : Digits s) (digits' : Digits t)
    (same : s.length = t.length) (equal : value s = value t) : s = t := by
  induction s generalizing t with
  | nil => exact (length_eq_zero_iff.mp same.symm).symm
  | cons c s ih =>
    cases t with
    | nil => simp at same
    | cons d t =>
      have not_less : ¬ value (c :: s) < value (d :: t) := equal.not_lt
      have not_more : ¬ value (d :: t) < value (c :: s) := equal.not_gt
      rw [value_lt_iff digits digits' same] at not_less
      rw [value_lt_iff digits' digits same.symm] at not_more
      obtain order | rfl | order := lt_trichotomy c d
      · exact absurd ⟨[], c, d, s, t, rfl, rfl, order⟩ not_less
      · have same := Nat.succ.inj same
        rw [value, value, same] at equal
        rw [ih digits.cons.2 digits'.cons.2 same (by omega)]
      · exact absurd ⟨[], d, c, t, s, rfl, rfl, order⟩ not_more

end Zebra.Decimal
