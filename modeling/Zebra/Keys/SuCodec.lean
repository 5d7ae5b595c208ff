import Mathlib.Algebra.Order.Ring.Int
import Zebra.Index.KeyBlock
import Zebra.Lib.SelfDelimiting

/-!
# The codes of ordinals

`su_codec.c`: an ordinal is written in base 64, the least significant digit first.  The digits of
65 to 128 are followed by another one, those of 2 to 64 are the last; 129 stands for -1.
-/

namespace Zebra.SuCodec

open Option List

open TempFile (keySUEncodeFrom)

/-- An `int`, or nothing where it overflows. -/
def int32 (n : Int) : Option Int := if -2 ^ 31 ≤ n ∧ n < 2 ^ 31 then some n else none

def keySUEncode (ch : Int) : List Byte :=
  if ch = -1 then [129] else TempFile.keySUEncode ch.toNat

/-- `*ch += digit * fact` -/
def addDigit (ch digit fact : Int) : Option Int :=
  (int32 (digit * fact)).bind fun product => int32 (ch + product)

/-- The loop of `key_SU_decode`; none where it reads behind the bytes or an `int` overflows. -/
def keySUDecodeFrom : List Byte → Int → Int → Nat → Option (Int × Nat)
  | [], _, _, _ => none
  | c :: out, ch, fact, len =>
    if 65 ≤ c then
      (addDigit ch (c - 65) fact).bind fun ch =>
        (int32 (fact * 64)).bind fun fact => keySUDecodeFrom out ch fact (len + 1)
    else
      (addDigit ch (c - 1) fact).map fun ch => (ch, len)

/-- `key_SU_decode`: the ordinal and the number of bytes. -/
def keySUDecode (out : List Byte) : Option (Int × Nat) := keySUDecodeFrom out 0 1 1

/-- The ordinals that are given out, and the one for queries without hits. -/
structure Ordinal where
  val : Int
  given : val = -1 ∨ (1 ≤ val ∧ val ≤ 2 ^ 31 - 1)
  deriving DecidableEq

def Ordinal.code (ord : Ordinal) : List Byte := keySUEncode ord.val

theorem int32_of_lt {n : Int} (lower : 0 ≤ n) (upper : n < 2 ^ 31) : int32 n = some n :=
  if_pos ⟨by omega, upper⟩

theorem addDigit_of_lt {ch digit fact : Int} (ch_nonneg : 0 ≤ ch) (product : 0 ≤ digit * fact)
    (sum : ch + digit * fact < 2 ^ 31) : addDigit ch digit fact = some (ch + digit * fact) := by
  rw [addDigit, int32_of_lt product (by omega), bind_some, int32_of_lt (by omega) sum]

/-- The decoder reads the rest of an ordinal with what it has read of it. -/
theorem keySUDecodeFrom_encode {fuel n : Nat} {ch fact : Int} {len : Nat} (rest : List Byte)
    (pos : 0 < n) (fits : n < 64 ^ fuel) (ch_nonneg : 0 ≤ ch) (fact_pos : 0 < fact)
    (sum : ch + n * fact < 2 ^ 31) :
    keySUDecodeFrom (keySUEncodeFrom fuel n ++ rest) ch fact len =
      some (ch + n * fact, len + (keySUEncodeFrom fuel n).length - 1) := by
  induction fuel generalizing n ch fact len with
  | zero => exact absurd fits (by omega)
  | succ fuel ih =>
    rw [keySUEncodeFrom, if_neg (Nat.ne_of_gt pos), cons_append, keySUDecodeFrom]
    by_cases more : 64 ≤ n
    · -- a digit that is followed by another one
      have digit : (((65 + n % 64 : Nat) : Int) - 65) = (n % 64 : Nat) := by omega
      have parts : ((n % 64 : Nat) : Int) * fact + ((n / 64 : Nat) : Int) * (fact * 64) =
          n * fact := by
        have whole : ((n % 64 : Nat) : Int) + 64 * ((n / 64 : Nat) : Int) = n := by omega
        rw [← whole]
        ring
      have low : 0 ≤ ((n % 64 : Nat) : Int) * fact :=
        Int.mul_nonneg (Int.natCast_nonneg _) fact_pos.le
      have next_pos : 0 < n / 64 := by omega
      have high : fact * 64 ≤ ((n / 64 : Nat) : Int) * (fact * 64) :=
        le_mul_of_one_le_left (by omega) (by exact_mod_cast next_pos)
      have next_fits : n / 64 < 64 ^ fuel := by
        rw [Nat.div_lt_iff_lt_mul (by decide), ← Nat.pow_succ]
        exact fits
      rw [if_pos more, if_pos (Nat.le_add_right 65 _), digit,
        addDigit_of_lt ch_nonneg low (by omega), bind_some, int32_of_lt (by omega) (by omega),
        bind_some, ih next_pos next_fits (by omega) (by omega) (by omega)]
      have length : 0 < (keySUEncodeFrom fuel (n / 64)).length := by
        cases fuel with
        | zero => exact absurd next_fits (by omega)
        | succ fuel =>
          rw [keySUEncodeFrom, if_neg (Nat.ne_of_gt next_pos)]
          exact Nat.succ_pos _
      simp only [some.injEq, Prod.mk.injEq, length_cons]
      exact ⟨by omega, by omega⟩
    · -- the last digit
      have last : n / 64 = 0 := Nat.div_eq_of_lt (by omega)
      have digit : (((1 + n : Nat) : Int) - 1) = n := by omega
      have none : keySUEncodeFrom fuel 0 = [] := by
        cases fuel with
        | zero => rfl
        | succ fuel => rfl
      rw [if_neg more, if_neg (show ¬ 65 ≤ 1 + n by omega), digit,
        addDigit_of_lt ch_nonneg (Int.mul_nonneg (Int.natCast_nonneg _) fact_pos.le) sum,
          last, none]
      rfl

/-- `key_SU_decode` reads an ordinal and as many bytes as it has. -/
theorem keySUDecode_encode {n : Nat} (rest : List Byte) (pos : 0 < n) (fits : n < 2 ^ 31) :
    keySUDecode (TempFile.keySUEncode n ++ rest) =
      some ((n : Int), (TempFile.keySUEncode n).length) := by
  rw [keySUDecode, TempFile.keySUEncode, keySUDecodeFrom_encode rest pos (by omega) le_rfl one_pos
    (by omega)]
  simp

theorem keySUEncodeFrom_range (fuel n : Nat) : ∀ c ∈ keySUEncodeFrom fuel n, 2 ≤ c ∧ c ≤ 128 := by
  induction fuel generalizing n with
  | zero => exact forall_mem_nil _
  | succ fuel ih =>
    rw [keySUEncodeFrom]
    split
    · exact forall_mem_nil _
    · refine forall_mem_cons.mpr ⟨?_, ih _⟩
      split
      · exact ⟨Nat.le_trans (by decide) (Nat.le_add_right 65 _),
          Nat.add_le_add_left (Nat.le_of_lt_succ (Nat.mod_lt _ (by decide))) 65⟩
      · exact ⟨Nat.add_le_add_left (Nat.one_le_iff_ne_zero.mpr (by assumption)) 1,
          Nat.add_le_add_left (Nat.le_of_lt (by omega)) 1 |>.trans (by decide : 1 + 64 ≤ 128)⟩

variable {ord : Ordinal}

theorem Ordinal.code_null (null : ord.val = -1) : ord.code = [129] := by
  rw [Ordinal.code, null]
  rfl

theorem Ordinal.code_given (given : 1 ≤ ord.val) :
    ord.code = TempFile.keySUEncode ord.val.toNat := by
  rw [Ordinal.code, SuCodec.keySUEncode, if_neg (by omega)]

theorem Ordinal.lt (given : 1 ≤ ord.val) : ord.val < 2 ^ 31 := by
  rcases ord.given with null | bounds
  · omega
  · omega

theorem keySUDecode_code (given : 1 ≤ ord.val) (rest : List Byte) :
    keySUDecode (ord.code ++ rest) = some (ord.val, ord.code.length) := by
  have fits := Ordinal.lt given
  rw [ord.code_given given, keySUDecode_encode rest (by omega) (by omega),
    Int.toNat_of_nonneg (by omega)]

/-- The bytes of the code of an ordinal other than -1. -/
theorem Ordinal.code_range (given : 1 ≤ ord.val) : ∀ c ∈ ord.code, 2 ≤ c ∧ c ≤ 128 := by
  rw [ord.code_given given]
  exact keySUEncodeFrom_range 6 _

theorem Ordinal.code_ne_nil : ord.code ≠ [] := by
  rcases ord.given with null | given
  · rw [ord.code_null null]
    exact cons_ne_nil _ _
  · intro empty
    have decoded := keySUDecode_code given.1 []
    rw [empty] at decoded
    cases decoded

theorem Ordinal.code_nonzero (ord : Ordinal) : ∀ c ∈ ord.code, c ≠ 0 := by
  intro c mem
  rcases ord.given with null | given
  · rw [ord.code_null null, mem_singleton] at mem
    rw [mem]
    decide
  · have range := ord.code_range given.1 c mem
    exact Nat.ne_of_gt (Nat.lt_of_lt_of_le (by decide) range.1)

def readOrdinal (key : List Byte) : Option Ordinal :=
  if key.head? = some 129 then
    some ⟨-1, .inl rfl⟩
  else
    (keySUDecode key).bind fun decoded =>
      if given : decoded.1 = -1 ∨ (1 ≤ decoded.1 ∧ decoded.1 ≤ 2 ^ 31 - 1) then
        some ⟨decoded.1, given⟩
      else
        none

theorem Ordinal.code_readsBack : ReadsBack Ordinal.code readOrdinal := by
  intro ord rest
  rcases ord.given with null | given
  · obtain ⟨val, property⟩ := ord
    subst null
    rw [Ordinal.code_null rfl]
    rfl
  · have other : (ord.code ++ rest).head? ≠ some 129 := by
      rw [head?_append_of_ne_nil _ ord.code_ne_nil]
      intro head
      have range := ord.code_range given.1 129 (mem_of_mem_head? head)
      exact absurd range.2 (by decide)
    rw [readOrdinal, if_neg other, keySUDecode_code given.1, bind_some, dif_pos ord.given]

end Zebra.SuCodec
