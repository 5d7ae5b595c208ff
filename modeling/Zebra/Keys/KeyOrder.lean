import Zebra.Keys.ItKey

/-!
# Order and code size of keys

For keys of one length `key_compare` is the lexicographic order, and its magnitude is graded: a key
further away never compares closer.  The second half bounds the bytes `iscz1` writes.  Writing a
key after a nearer predecessor is never longer, and writing it after the predecessor of its
predecessor is never longer than writing both; these two facts bound a block that is rewritten
with keys inserted and deleted.
-/

namespace Zebra

open List Varint

section

variable {i1 i2 : ItKey}

theorem cons_le_cons_iff_key {c1 c2 : Nat} : c1 :: i1 ≤ c2 :: i2 ↔ c1 < c2 ∨ c1 = c2 ∧ i1 ≤ i2 := by
  simp only [le_iff_lt_or_eq, cons_lt_cons_iff, List.cons.injEq]
  tauto

theorem keyCompareFrom_cons (rest c1 c2 : Nat) (i1 i2 : ItKey) :
    keyCompareFrom (rest + 1) (c1 :: i1) (c2 :: i2) =
      if c1 = c2 then keyCompareFrom rest i1 i2
      else if c2 < c1 then (rest + 1 : Int) else -(rest + 1 : Int) := by
  simp [keyCompareFrom]

theorem keyCompareFrom_eq_zero (same : i1.length = i2.length) :
    keyCompareFrom i1.length i1 i2 = 0 ↔ i1 = i2 := by
  induction i1 generalizing i2 with
  | nil => simp_all [keyCompareFrom, eq_comm]
  | cons c1 i1 ih =>
    obtain ⟨c2, i2, rfl⟩ := exists_cons_of_length_eq_add_one same.symm
    have tails := @ih i2 (by simpa using same)
    rw [length_cons, keyCompareFrom_cons, List.cons.injEq]
    rcases lt_trichotomy c1 c2 with less | rfl | greater
    · simp only [less.ne, less.not_gt, if_false, false_and, iff_false]
      omega
    · simpa using tails
    · simp only [greater.ne', greater, if_false, if_true, false_and, iff_false]
      omega

theorem keyCompareFrom_neg (same : i1.length = i2.length) :
    keyCompareFrom i1.length i1 i2 < 0 ↔ i1 < i2 := by
  induction i1 generalizing i2 with
  | nil =>
    obtain rfl : i2 = [] := by simpa [eq_comm] using same
    simp [keyCompareFrom]
  | cons c1 i1 ih =>
    obtain ⟨c2, i2, rfl⟩ := exists_cons_of_length_eq_add_one same.symm
    have tails := @ih i2 (by simpa using same)
    rw [length_cons, keyCompareFrom_cons, cons_lt_cons_iff]
    rcases lt_trichotomy c1 c2 with less | rfl | greater
    · simp only [less.ne, less.not_gt, less, if_false, true_or, iff_true]
      omega
    · simpa using tails
    · simp only [greater.ne', greater.not_gt, greater, if_false, if_true, false_and, or_false,
        iff_false]
      omega

/-- Keys of one length compare equal only when they are equal. -/
theorem keyCompare_eq_zero (same : i1.length = i2.length) : keyCompare i1 i2 = 0 ↔ i1 = i2 := by
  simpa [keyCompare, ← same] using keyCompareFrom_eq_zero same

theorem keyCompare_neg (same : i1.length = i2.length) : keyCompare i1 i2 < 0 ↔ i1 < i2 := by
  simpa [keyCompare, ← same] using keyCompareFrom_neg same

theorem keyCompare_pos (same : i1.length = i2.length) : 0 < keyCompare i1 i2 ↔ i2 < i1 := by
  have neg := keyCompare_neg same
  have zero := keyCompare_eq_zero same
  rcases lt_trichotomy i1 i2 with lt | eq | gt
  · simp [lt.not_gt, (neg.mpr lt).le]
  · rw [zero.mpr eq]
    simp [eq]
  · have not_neg := mt neg.mp gt.not_gt
    have not_zero := mt zero.mp gt.ne'
    simp [gt]
    omega

theorem keyCompareFrom_antitone {rest : Nat} {key low high : ItKey} (le : low ≤ high)
    (low_length : low.length = rest) (high_length : high.length = rest)
    (key_length : key.length = rest) :
    keyCompareFrom rest key high ≤ keyCompareFrom rest key low := by
  induction rest generalizing key low high with
  | zero => simp [keyCompareFrom]
  | succ rest ih =>
    obtain ⟨k, key, rfl⟩ := exists_cons_of_length_eq_add_one key_length
    obtain ⟨l, low, rfl⟩ := exists_cons_of_length_eq_add_one low_length
    obtain ⟨h, high, rfl⟩ := exists_cons_of_length_eq_add_one high_length
    have bound (a b : ItKey) : keyCompareFrom rest a b ≤ rest ∧ -(rest : Int) ≤
        keyCompareFrom rest a b := by
      clear ih low_length high_length key_length le
      induction rest generalizing a b with
      | zero => simp [keyCompareFrom]
      | succ rest ih =>
        have := ih a.tail b.tail
        simp only [keyCompareFrom]
        split_ifs <;> omega
    have key_low := bound key low
    have key_high := bound key high
    rw [keyCompareFrom_cons, keyCompareFrom_cons]
    rcases cons_le_cons_iff_key.mp le with less | ⟨rfl, tails⟩
    · split_ifs <;> omega
    · by_cases heads : k = l
      · simpa [heads] using ih tails (by simpa using low_length) (by simpa using high_length)
          (by simpa using key_length)
      · simp [heads]

/-- `key_compare` is graded: seen from any key, a larger key never compares higher. -/
theorem keyCompare_antitone {key low high : ItKey} (le : low ≤ high)
    (low_length : low.length = key.length) (high_length : high.length = key.length) :
    keyCompare key high ≤ keyCompare key low := by
  simpa [keyCompare, low_length, high_length] using
    keyCompareFrom_antitone le low_length high_length rfl

end

section

def absSize (ts : List Nat) : Nat := (ts.flatMap iscz1EncodeInt).length

/-- Bytes written for the levels `ts` after a key whose levels there are `ps`. -/
def deltaSize (len i : Nat) (ps ts : List Nat) : Nat := (iscz1EncodeFrom len i ts ps).2.length

@[simp] theorem absSize_nil : absSize [] = 0 := rfl

@[simp] theorem absSize_cons (t : Nat) (ts : List Nat) :
    absSize (t :: ts) = (encode t).length + absSize ts := by
  simp [absSize, iscz1EncodeInt]

variable {len i : Nat} {ps ts : List Nat}

theorem deltaSize_cons {p t : Nat} (leader_small : i + len * 8 ≤ 63) :
    deltaSize len i (p :: ps) (t :: ts) =
      if t ≠ p ∨ ts = [] then
        1 + (encode (if p < t then t - p else t)).length + absSize ts
      else deltaSize len (i + 1) ps ts := by
  simp only [deltaSize, iscz1EncodeFrom]
  split
  · split <;>
      simp [iscz1EncodeInt, absSize, encode_of_le (show i + len * 8 + 64 ≤ 127 by omega),
        encode_of_le (show i + len * 8 ≤ 127 by omega)] <;> omega
  · rfl

/-- A difference is never longer than the absolute components. -/
theorem deltaSize_le_absSize (same : ps.length = ts.length)
    (levels : i + ts.length = len) (len_le : len ≤ 5) : deltaSize len i ps ts ≤ 1 + absSize ts := by
  induction ts generalizing i ps with
  | nil => simp [deltaSize, iscz1EncodeFrom]
  | cons t ts ih =>
    obtain ⟨p, ps, rfl⟩ := exists_cons_of_length_eq_add_one same
    rw [length_cons] at levels
    rw [deltaSize_cons (by omega), absSize_cons]
    split
    · have shorter := encode_length_mono (show (if p < t then t - p else t) ≤ t by
        split <;> omega)
      omega
    · have rest := @ih (i + 1) ps (by simpa using same) (by omega)
      omega

/-- Writing a key after a nearer predecessor is never longer. -/
theorem deltaSize_mono_left {as xs bs : List Nat} (le : as ≤ xs) (lt : xs < bs)
    (as_length : as.length = bs.length) (xs_length : xs.length = bs.length)
    (levels : i + bs.length = len) (len_le : len ≤ 5) :
    deltaSize len i xs bs ≤ deltaSize len i as bs := by
  induction bs generalizing i as xs with
  | nil => simp at lt
  | cons b bs ih =>
    obtain ⟨a, as, rfl⟩ := exists_cons_of_length_eq_add_one as_length
    obtain ⟨x, xs, rfl⟩ := exists_cons_of_length_eq_add_one xs_length
    rw [length_cons] at levels
    have xs_same : xs.length = bs.length := by simpa using xs_length
    have as_same : as.length = bs.length := by simpa using as_length
    rw [deltaSize_cons (by omega), deltaSize_cons (by omega)]
    rcases cons_lt_cons_iff.mp lt with x_lt | ⟨rfl, tails_lt⟩
    · -- the first level decides for both predecessors
      have a_le : a ≤ x := by
        rcases cons_le_cons_iff_key.mp le with a_lt | ⟨rfl, -⟩ <;> omega
      have shorter := encode_length_mono (show b - x ≤ b - a by omega)
      rw [if_pos (Or.inl (by omega)), if_pos (Or.inl (by omega)), if_pos x_lt,
        if_pos (by omega)]
      omega
    · have bs_ne : bs ≠ [] := by rintro rfl; simp at tails_lt
      rw [if_neg (by simp [bs_ne])]
      rcases cons_le_cons_iff_key.mp le with a_lt | ⟨rfl, tails_le⟩
      · rw [if_pos (Or.inl (by omega)), if_pos a_lt]
        have rest := deltaSize_le_absSize (i := i + 1) xs_same (by omega) len_le
        omega
      · rw [if_neg (by simp [bs_ne])]
        exact ih tails_le tails_lt as_same xs_same (by omega)

/-- The absolute components of a key are never longer than those of its predecessor and the
difference together. -/
theorem absSize_le_add_deltaSize (le : ps ≤ ts)
    (same : ps.length = ts.length) (levels : i + ts.length = len) (len_le : len ≤ 5) :
    absSize ts ≤ absSize ps + deltaSize len i ps ts := by
  induction ts generalizing i ps with
  | nil => simp
  | cons t ts ih =>
    obtain ⟨p, ps, rfl⟩ := exists_cons_of_length_eq_add_one same
    rw [length_cons] at levels
    rw [deltaSize_cons (by omega), absSize_cons, absSize_cons]
    rcases cons_le_cons_iff_key.mp le with p_lt | ⟨rfl, tails_le⟩
    · have sum := encode_length_add p (t - p)
      rw [Nat.add_sub_cancel' p_lt.le] at sum
      rw [if_pos (.inl p_lt.ne'), if_pos p_lt]
      omega
    · by_cases ts_nil : ts = []
      · simp [ts_nil]
        omega
      · rw [if_neg (by simp [ts_nil])]
        have rest := ih (i := i + 1) tails_le (by simpa using same) (by omega)
        omega

/-- Leaving out a key between two others never makes the code longer. -/
theorem deltaSize_triangle {as xs bs : List Nat} (le₁ : as ≤ xs) (le₂ : xs ≤ bs)
    (as_length : as.length = bs.length) (xs_length : xs.length = bs.length)
    (levels : i + bs.length = len) (len_le : len ≤ 5) :
    deltaSize len i as bs ≤ deltaSize len i as xs + deltaSize len i xs bs := by
  induction bs generalizing i as xs with
  | nil => simp [deltaSize, iscz1EncodeFrom]
  | cons b bs ih =>
    obtain ⟨a, as, rfl⟩ := exists_cons_of_length_eq_add_one as_length
    obtain ⟨x, xs, rfl⟩ := exists_cons_of_length_eq_add_one xs_length
    rw [length_cons] at levels
    have xs_same : xs.length = bs.length := by simpa using xs_length
    have as_same : as.length = bs.length := by simpa using as_length
    have nil_iff : xs = [] ↔ bs = [] := by
      rw [← length_eq_zero_iff, xs_same, length_eq_zero_iff]
    rw [deltaSize_cons (by omega), deltaSize_cons (by omega), deltaSize_cons (by omega)]
    simp only [nil_iff]
    rcases cons_le_cons_iff_key.mp le₁ with a_lt | ⟨rfl, tails₁⟩
    · rcases cons_le_cons_iff_key.mp le₂ with x_lt | ⟨rfl, tails₂⟩
      · have sum := encode_length_add (x - a) (b - x)
        rw [show x - a + (b - x) = b - a by omega] at sum
        simp only [if_pos (Or.inl (show b ≠ a by omega)), if_pos (Or.inl a_lt.ne'),
          if_pos (Or.inl x_lt.ne'), if_pos a_lt, if_pos x_lt, if_pos (a_lt.trans x_lt)]
        omega
      · simp only [if_pos (Or.inl a_lt.ne'), if_pos a_lt]
        by_cases bs_nil : bs = []
        · simp [bs_nil]
          omega
        · rw [if_neg (by simp [bs_nil])]
          have rest := absSize_le_add_deltaSize (i := i + 1) tails₂ xs_same (by omega) len_le
          omega
    · rcases cons_le_cons_iff_key.mp le₂ with x_lt | ⟨rfl, tails₂⟩
      · simp only [if_pos (Or.inl (show b ≠ a by omega))]
        omega
      · by_cases bs_nil : bs = []
        · simp [bs_nil]
        · simp only [bs_nil, or_false, ne_eq, not_true_eq_false, if_false]
          exact ih tails₁ tails₂ as_same xs_same (by omega)

theorem absSize_le (small : ∀ t ∈ ts, t < 2 ^ 63) : absSize ts ≤ 9 * ts.length := by
  induction ts with
  | nil => simp
  | cons t ts ih =>
    have first := encode_length_le (k := 8) (small t mem_cons_self)
    have rest := ih fun u mem => small u (mem_cons_of_mem t mem)
    simp only [absSize_cons, length_cons]
    omega

/-- Only the levels of the key itself are looked at in the state. -/
theorem iscz1Encode_take (mem : CodeInfo) (key : ItKey) :
    (iscz1Encode (mem.take key.length) key).2 = (iscz1Encode mem key).2 := by
  have from_level (len i : Nat) (ts : List Nat) (ps : CodeInfo) :
      (iscz1EncodeFrom len i ts (ps.take ts.length)).2 = (iscz1EncodeFrom len i ts ps).2 := by
    induction ts generalizing i ps with
    | nil => simp [iscz1EncodeFrom]
    | cons t ts ih =>
      cases ps with
      | nil => rfl
      | cons p ps =>
        simp only [length_cons, take_succ_cons, iscz1EncodeFrom]
        split
        · split <;> rfl
        · exact ih (i + 1) ps
  exact from_level key.length 0 key mem

/-- A key takes at most a leader and nine bytes a component. -/
theorem iscz1Encode_length_le {key : ItKey} (valid : key.Valid) {mem : CodeInfo}
    (room : key.length ≤ mem.length) : (iscz1Encode mem key).2.length ≤ 46 := by
  have delta := deltaSize_le_absSize (i := 0) (length_take_of_le room) (Nat.zero_add _)
    valid.le_max
  have absolute := absSize_le valid.small
  have levels : key.length ≤ 5 := valid.le_max
  rw [← iscz1Encode_take, iscz1Encode, ← deltaSize]
  omega

theorem iscz1Encode_length_ge {key : ItKey} (valid : key.Valid) {mem : CodeInfo}
    (room : key.length ≤ mem.length) : 2 ≤ (iscz1Encode mem key).2.length := by
  have at_least (len i : Nat) (ps ts : List Nat) (same : ps.length = ts.length) (ts_ne : ts ≠ [])
      (levels : i + ts.length = len) (len_le : len ≤ 5) : 2 ≤ deltaSize len i ps ts := by
    induction ts generalizing i ps with
    | nil => exact absurd rfl ts_ne
    | cons t ts ih =>
      obtain ⟨p, ps, rfl⟩ := exists_cons_of_length_eq_add_one same
      rw [length_cons] at levels
      rw [deltaSize_cons (by omega)]
      split
      · have := encode_length_pos (if p < t then t - p else t)
        omega
      · next other =>
        have ts_ne' : ts ≠ [] := fun ts_nil => other (.inr ts_nil)
        exact ih (i + 1) ps (by simpa using same) ts_ne' (by omega)
  rw [← iscz1Encode_take]
  exact at_least _ 0 _ key (length_take_of_le room) (ne_nil_of_length_pos valid.pos)
    (Nat.zero_add _) valid.le_max

end

end Zebra
