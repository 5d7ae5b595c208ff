import Mathlib.Data.Nat.Log
import Mathlib.Data.List.Basic
import Mathlib.Tactic.Ring

/-!
# Base-128 numerals

Natural numbers written seven bits at a time, least significant group first, with the high bit of
a byte set on every group but the last.  The decoder accumulates shifted groups, as a loop over a
byte pointer does; `decode_encode` says that it reads back what the encoder wrote and stops right
behind it, whatever bytes follow.
-/

namespace Zebra

abbrev Byte := Nat

namespace Varint

/-- Encode with a bound on the number of continuation groups. -/
def encodeAux : Nat → Nat → List Byte
  | 0, n => [n % 128]
  | fuel + 1, n => if 127 < n then (128 + n % 128) :: encodeAux fuel (n / 128) else [n]

/-- The base-128 numeral of `n`; a number never has more groups than its value. -/
def encode (n : Nat) : List Byte := encodeAux n n

/-- Decode with the groups read so far worth `acc` and the next group shifted by `shift` bits. -/
def decodeFrom : Nat → Nat → List Byte → Option (Nat × List Byte)
  | _, _, [] => none
  | shift, acc, c :: src =>
    if 128 ≤ c then decodeFrom (shift + 7) (acc + c % 128 * 2 ^ shift) src
    else some (acc + c * 2 ^ shift, src)

def decode (src : List Byte) : Option (Nat × List Byte) := decodeFrom 0 0 src

theorem encodeAux_irrel {fuel₁ fuel₂ n : Nat} (le₁ : n ≤ fuel₁) (le₂ : n ≤ fuel₂) :
    encodeAux fuel₁ n = encodeAux fuel₂ n := by
  induction fuel₁ generalizing fuel₂ n with
  | zero =>
    obtain rfl : n = 0 := Nat.le_zero.mp le₁
    cases fuel₂ <;> rfl
  | succ fuel₁ ih =>
    cases fuel₂ with
    | zero =>
      obtain rfl : n = 0 := Nat.le_zero.mp le₂
      rfl
    | succ fuel₂ =>
      simp only [encodeAux]
      split
      · rw [ih (show n / 128 ≤ fuel₁ by omega) (show n / 128 ≤ fuel₂ by omega)]
      · rfl

theorem encode_of_le {n : Nat} (small : n ≤ 127) : encode n = [n] := by
  cases n with
  | zero => rfl
  | succ n => simp [encode, encodeAux, Nat.not_lt.mpr small]

theorem encode_of_lt {n : Nat} (large : 127 < n) :
    encode n = (128 + n % 128) :: encode (n / 128) := by
  obtain ⟨m, rfl⟩ : ∃ m, n = m + 1 := ⟨n - 1, by omega⟩
  simp only [encode, encodeAux, large, if_true]
  rw [encodeAux_irrel (show (m + 1) / 128 ≤ m by omega) (Nat.le_refl ((m + 1) / 128))]

theorem group_induction {motive : Nat → Prop} (single : ∀ n, n ≤ 127 → motive n)
    (group : ∀ n, 127 < n → motive (n / 128) → motive n) (n : Nat) : motive n := by
  induction n using Nat.strong_induction_on with
  | _ n ih =>
    by_cases small : n ≤ 127
    · exact single n small
    · exact group n (by omega) (ih (n / 128) (by omega))

theorem decodeFrom_encode (n shift acc : Nat) (tail : List Byte) :
    decodeFrom shift acc (encode n ++ tail) = some (acc + n * 2 ^ shift, tail) := by
  induction n using group_induction generalizing shift acc with
  | single n small =>
    have not_continued : ¬ 128 ≤ n := by omega
    simp [encode_of_le small, decodeFrom, not_continued]
  | group n large ih =>
    rw [encode_of_lt large, List.cons_append, decodeFrom, if_pos (Nat.le_add_right _ _), ih]
    have split : n = n % 128 + 128 * (n / 128) := (Nat.mod_add_div n 128).symm
    have low : (128 + n % 128) % 128 = n % 128 := by omega
    congr 2
    rw [low, pow_add]
    conv_rhs => rw [split]
    ring

/-- Decoding inverts encoding and consumes exactly the numeral. -/
theorem decode_encode (n : Nat) (tail : List Byte) :
    decode (encode n ++ tail) = some (n, tail) := by
  simpa [decode] using decodeFrom_encode n 0 0 tail

@[simp] theorem encode_ne_nil (n : Nat) : encode n ≠ [] := by
  induction n using group_induction with
  | single n small => simp [encode_of_le small]
  | group n large _ => simp [encode_of_lt large]

theorem encode_length_pos (n : Nat) : 0 < (encode n).length :=
  List.length_pos_iff.mpr (encode_ne_nil n)

/-- A number of at most `7 * k` bits takes at most `k` bytes. -/
theorem encode_length_le {n k : Nat} (bound : n < 2 ^ (7 * (k + 1))) :
    (encode n).length ≤ k + 1 := by
  induction n using group_induction generalizing k with
  | single n small => simp [encode_of_le small]
  | group n large ih =>
    cases k with
    | zero => omega
    | succ k =>
      have power : 2 ^ (7 * (k + 1 + 1)) = 128 * 2 ^ (7 * (k + 1)) := by
        rw [show 7 * (k + 1 + 1) = 7 * (k + 1) + 7 by omega, pow_add]
        omega
      have quotient : n / 128 < 2 ^ (7 * (k + 1)) := by omega
      simpa [encode_of_lt large] using ih quotient

theorem encode_length_mono {m n : Nat} (le : m ≤ n) : (encode m).length ≤ (encode n).length := by
  induction n using group_induction generalizing m with
  | single n small => simp [encode_of_le small, encode_of_le (le.trans small)]
  | group n large ih =>
    by_cases m_small : m ≤ 127
    · simp [encode_of_le m_small, encode_of_lt large]
    · rw [encode_of_lt large, encode_of_lt (by omega)]
      simpa using ih (Nat.div_le_div_right le)

/-- A sum needs no more bytes than its two summands together. -/
theorem encode_length_add (m n : Nat) :
    (encode (m + n)).length ≤ (encode m).length + (encode n).length := by
  have double (k : Nat) : (encode (2 * k)).length ≤ (encode k).length + 1 := by
    induction k using group_induction with
    | single k small =>
      simpa [encode_of_le small] using encode_length_le (n := 2 * k) (k := 1) (by omega)
    | group k large ih =>
      rw [encode_of_lt large, encode_of_lt (show 127 < 2 * k by omega)]
      have quotient : 2 * k / 128 ≤ 2 * (k / 128) + 1 := by omega
      by_cases even : 2 * k / 128 = 2 * (k / 128)
      · simpa [even] using ih
      · have odd : 2 * k / 128 = 2 * (k / 128) + 1 := by omega
        rw [odd]
        simp only [List.length_cons]
        by_cases tiny : k / 128 ≤ 63
        · rw [encode_of_le (by omega)]
          simp
        · have same : (encode (2 * (k / 128) + 1)).length = (encode (2 * (k / 128))).length := by
            rw [encode_of_lt (show 127 < 2 * (k / 128) + 1 by omega),
              encode_of_lt (show 127 < 2 * (k / 128) by omega)]
            rw [show (2 * (k / 128) + 1) / 128 = 2 * (k / 128) / 128 by omega]
            rfl
          omega
  have m_pos := encode_length_pos m
  have n_pos := encode_length_pos n
  rcases Nat.le_total m n with le | le
  · have := encode_length_mono (show m + n ≤ 2 * n by omega)
    have := double n
    omega
  · have := encode_length_mono (show m + n ≤ 2 * m by omega)
    have := double m
    omega

end Varint

end Zebra
