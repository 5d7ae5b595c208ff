import Zebra.Isamb.Block
import Zebra.Keys.KeyOrder

/-!
# What the merge may rely on in a method

`LawfulIsamc` lists the properties of comparison and codec that ISAMB needs: a linear order, a coder
whose state is the last item, and codes of a bounded length that never get longer by more than what
is put in.  Keys of one length with `key_compare` and `iscz1` have them.
-/

namespace Zebra

open List

/-- A method whose items are linearly ordered by `compare_item` and delta coded in that order. -/
structure LawfulIsamc {Item Code : Type} [LinearOrder Item] (m : IsamcM Item Code) where
  /-- Items that occur in lists. -/
  Valid : Item → Prop
  /-- Coder state behind an item. -/
  after : Item → Code
  compare_neg : ∀ x y, Valid x → Valid y → (m.compareItem x y < 0 ↔ x < y)
  compare_pos : ∀ x y, Valid x → Valid y → (0 < m.compareItem x y ↔ y < x)
  encode_fst : ∀ (prev : Option Item) x, (∀ y ∈ prev, Valid y) → Valid x →
    (m.encode (prev.elim m.reset after) x).1 = after x
  decode_encode : ∀ (prev : Option Item) x tail, (∀ y ∈ prev, Valid y) → Valid x →
    m.decode (prev.elim m.reset after) ((m.encode (prev.elim m.reset after) x).2 ++ tail) =
      some (x, after x, tail)
  two_le : ∀ (prev : Option Item) x, (∀ y ∈ prev, Valid y) → Valid x →
    2 ≤ (m.encode (prev.elim m.reset after) x).2.length
  /-- The most bytes that a code has. -/
  codeMax : Nat
  length_le : ∀ (prev : Option Item) x, (∀ y ∈ prev, Valid y) → Valid x →
    (m.encode (prev.elim m.reset after) x).2.length ≤ codeMax
  /-- How much longer a code gets at the start of a block. -/
  restart : Nat
  length_restart : ∀ (prev : Option Item) x, (∀ y ∈ prev, Valid y) → Valid x →
    (m.encode m.reset x).2.length ≤ (m.encode (prev.elim m.reset after) x).2.length + restart
  length_mono : ∀ (prev : Option Item) x z, (∀ y ∈ prev, Valid y ∧ y < x) → Valid x → Valid z →
    x < z →
      (m.encode (after x) z).2.length ≤ (m.encode (prev.elim m.reset after) z).2.length
  length_skip : ∀ (prev : Option Item) x z, (∀ y ∈ prev, Valid y ∧ y < x) → Valid x → Valid z →
    x < z →
      (m.encode (prev.elim m.reset after) z).2.length ≤
        (m.encode (prev.elim m.reset after) x).2.length + (m.encode (after x) z).2.length

/-- The last item of a sequence behind `prev`. -/
def lastItem {Item : Type} : Option Item → List Item → Option Item
  | prev, [] => prev
  | _, x :: xs => lastItem (some x) xs

@[simp] theorem lastItem_concat {Item : Type} (prev : Option Item) (xs : List Item) (x : Item) :
    lastItem prev (xs ++ [x]) = some x := by
  induction xs generalizing prev with
  | nil => rfl
  | cons y xs ih => exact ih (some y)

theorem mem_of_lastItem {Item : Type} {xs : List Item} {x : Item} :
    lastItem none xs = some x → x ∈ xs := by
  have from_any (prev : Option Item) : lastItem prev xs = some x → prev = some x ∨ x ∈ xs := by
    induction xs generalizing prev with
    | nil => exact .inl
    | cons y xs ih =>
      intro last
      rcases ih (some y) last with same | mem
      · cases same
        exact .inr mem_cons_self
      · exact .inr (mem_cons_of_mem y mem)
  intro last
  simpa using from_any none last

namespace LawfulIsamc

variable {Item Code : Type} [LinearOrder Item] {m : IsamcM Item Code} (law : LawfulIsamc m)

def state (prev : Option Item) : Code := prev.elim m.reset law.after

/-- Code of an item behind `prev`. -/
def piece (prev : Option Item) (x : Item) : List Byte := (m.encode (law.state prev) x).2

/-- Code of a sequence behind `prev`. -/
def codes : Option Item → List Item → List Byte
  | _, [] => []
  | prev, x :: xs => law.piece prev x ++ codes (some x) xs

@[simp] theorem codes_nil (prev : Option Item) : law.codes prev [] = [] := rfl

@[simp] theorem codes_cons (prev : Option Item) (x : Item) (xs : List Item) :
    law.codes prev (x :: xs) = law.piece prev x ++ law.codes (some x) xs := rfl

theorem codes_append (prev : Option Item) (xs ys : List Item) :
    law.codes prev (xs ++ ys) = law.codes prev xs ++ law.codes (lastItem prev xs) ys := by
  induction xs generalizing prev with
  | nil => rfl
  | cons x xs ih => simp [ih, lastItem]

theorem valid_none : ∀ y ∈ (none : Option Item), law.Valid y := nofun

variable {x : Item}

theorem valid_some (valid : law.Valid x) : ∀ y ∈ some x, law.Valid y := by
  rintro _ ⟨⟩
  exact valid

variable {prev : Option Item}

theorem encode_state (prev_valid : ∀ y ∈ prev, law.Valid y)
    (valid : law.Valid x) : m.encode (law.state prev) x = (law.after x, law.piece prev x) :=
  Prod.ext (law.encode_fst prev x prev_valid valid) rfl

theorem decode_piece (prev_valid : ∀ y ∈ prev, law.Valid y)
    (valid : law.Valid x) (tail : List Byte) :
    m.decode (law.state prev) (law.piece prev x ++ tail) = some (x, law.after x, tail) :=
  law.decode_encode prev x tail prev_valid valid

theorem two_le_piece (prev_valid : ∀ y ∈ prev, law.Valid y)
    (valid : law.Valid x) : 2 ≤ (law.piece prev x).length :=
  law.two_le prev x prev_valid valid

theorem piece_le (prev_valid : ∀ y ∈ prev, law.Valid y)
    (valid : law.Valid x) : (law.piece prev x).length ≤ law.codeMax :=
  law.length_le prev x prev_valid valid

theorem piece_restart (prev_valid : ∀ y ∈ prev, law.Valid y)
    (valid : law.Valid x) : (law.piece none x).length ≤ (law.piece prev x).length + law.restart :=
  law.length_restart prev x prev_valid valid

theorem piece_mono {x z : Item} (before : ∀ y ∈ prev, law.Valid y ∧ y < x)
    (x_valid : law.Valid x) (z_valid : law.Valid z) (lt : x < z) :
    (law.piece (some x) z).length ≤ (law.piece prev z).length :=
  law.length_mono prev x z before x_valid z_valid lt

theorem piece_skip {x z : Item} (before : ∀ y ∈ prev, law.Valid y ∧ y < x)
    (x_valid : law.Valid x) (z_valid : law.Valid z) (lt : x < z) :
    (law.piece prev z).length ≤ (law.piece prev x).length + (law.piece (some x) z).length :=
  law.length_skip prev x z before x_valid z_valid lt

theorem two_mul_le_codes {xs : List Item}
    (prev_valid : ∀ y ∈ prev, law.Valid y) (valid : ∀ x ∈ xs, law.Valid x) :
    2 * xs.length ≤ (law.codes prev xs).length := by
  induction xs generalizing prev with
  | nil => simp
  | cons x xs ih =>
    have x_valid := valid x mem_cons_self
    have first := law.two_le_piece prev_valid x_valid
    have rest := ih (law.valid_some x_valid)
      fun y mem => valid y (mem_cons_of_mem x mem)
    simp only [length_cons, codes_cons, length_append]
    omega

theorem codes_mono {xs : List Item}
    (before : ∀ y ∈ prev, law.Valid y ∧ y < x) (x_valid : law.Valid x)
    (valid : ∀ z ∈ xs, law.Valid z ∧ x < z) :
    (law.codes (some x) xs).length ≤ (law.codes prev xs).length := by
  cases xs with
  | nil => simp
  | cons z xs =>
    have first := valid z mem_cons_self
    have shorter := law.piece_mono before x_valid first.1 first.2
    simp only [codes_cons, length_append]
    omega

theorem codes_skip {xs : List Item}
    (before : ∀ y ∈ prev, law.Valid y ∧ y < x) (x_valid : law.Valid x)
    (valid : ∀ z ∈ xs, law.Valid z ∧ x < z) :
    (law.codes prev xs).length ≤ (law.codes prev (x :: xs)).length := by
  cases xs with
  | nil => simp
  | cons z xs =>
    have first := valid z mem_cons_self
    have shorter := law.piece_skip before x_valid first.1 first.2
    simp only [codes_cons, length_append]
    omega

end LawfulIsamc

section

def keyBefore (n : Nat) (prev : Option ItKey) : ItKey := prev.getD (replicate n 0)

theorem replicate_le_key (key : ItKey) : replicate key.length 0 ≤ key := by
  induction key with
  | nil => simp
  | cons k key ih =>
    rw [length_cons, replicate_succ, cons_le_cons_iff_key]
    rcases Nat.eq_zero_or_pos k with rfl | pos
    · exact .inr ⟨rfl, ih⟩
    · exact .inl pos

/-- Coder state behind a key of one length, when no longer key was coded before. -/
def keyAfter (key : ItKey) : CodeInfo := key ++ replicate (itKeyLevelMax - key.length) 0

variable {n : Nat} {prev : Option ItKey} {key : ItKey}

theorem keyState_eq (prev_valid : ∀ y ∈ prev, y.Valid ∧ y.length = n) (n_le : n ≤ 5) :
    prev.elim keyMethod.reset keyAfter =
      keyBefore n prev ++ replicate (itKeyLevelMax - n) 0 := by
  cases prev with
  | none =>
    change replicate itKeyLevelMax 0 = replicate n 0 ++ _
    rw [replicate_append_replicate, Nat.add_sub_cancel' (by exact n_le)]
  | some y =>
    obtain ⟨-, rfl⟩ := prev_valid y rfl
    rfl

theorem keyBefore_length (prev_valid : ∀ y ∈ prev, y.Valid ∧ y.length = n) :
    (keyBefore n prev).length = n := by
  cases prev with
  | none => simp [keyBefore]
  | some y => exact (prev_valid y rfl).2

theorem keyState_length (prev_valid : ∀ y ∈ prev, y.Valid ∧ y.length = n) (n_le : n ≤ 5) :
    (prev.elim keyMethod.reset keyAfter).length = itKeyLevelMax := by
  rw [keyState_eq prev_valid n_le, length_append, keyBefore_length prev_valid,
    length_replicate, Nat.add_sub_cancel' (by exact n_le)]

theorem keyValid_some {x : ItKey} (valid : x.Valid ∧ x.length = n) :
    ∀ y ∈ some x, y.Valid ∧ y.length = n := by
  rintro _ ⟨⟩
  exact valid

theorem keyEncode_length (prev_valid : ∀ y ∈ prev, y.Valid ∧ y.length = n)
    (valid : key.Valid ∧ key.length = n) :
    (keyMethod.encode (prev.elim keyMethod.reset keyAfter) key).2.length =
      deltaSize n 0 (keyBefore n prev) key := by
  obtain ⟨key_valid, rfl⟩ := valid
  change (iscz1Encode (prev.elim keyMethod.reset keyAfter) key).2.length = _
  rw [← iscz1Encode_take, keyState_eq prev_valid key_valid.le_max,
    take_left' (keyBefore_length prev_valid)]
  rfl

theorem keyBefore_le {x : ItKey} (before : ∀ y ∈ prev, (y.Valid ∧ y.length = n) ∧ y < x)
    (x_length : x.length = n) : keyBefore n prev ≤ x := by
  cases prev with
  | none => exact x_length ▸ replicate_le_key x
  | some y => exact (before y rfl).2.le

/-- `key_compare` and `iscz1` on keys of length `n`. -/
def keyLawful (n : Nat) : LawfulIsamc keyMethod where
  Valid key := key.Valid ∧ key.length = n
  after := keyAfter
  compare_neg x y x_valid y_valid := keyCompare_neg (x_valid.2.trans y_valid.2.symm)
  compare_pos x y x_valid y_valid := keyCompare_pos (x_valid.2.trans y_valid.2.symm)
  encode_fst prev x prev_valid valid := by
    have n_le : n ≤ 5 := valid.2 ▸ valid.1.le_max
    have room : x.length ≤ (prev.elim keyMethod.reset keyAfter).length := by
      rw [keyState_length prev_valid n_le]
      exact valid.1.le_max
    change (iscz1Encode _ x).1 = _
    rw [iscz1Encode_state room, keyState_eq prev_valid n_le, valid.2,
      drop_left' (keyBefore_length prev_valid), keyAfter, valid.2]
  decode_encode prev x tail prev_valid valid := by
    have n_le : n ≤ 5 := valid.2 ▸ valid.1.le_max
    have decoded := iscz1Decode_encode valid.1 (keyState_length prev_valid n_le) tail
    have room : x.length ≤ (prev.elim keyMethod.reset keyAfter).length := by
      rw [keyState_length prev_valid n_le]
      exact valid.1.le_max
    rw [iscz1Encode_state room, keyState_eq prev_valid n_le, valid.2,
      drop_left' (keyBefore_length prev_valid)] at decoded
    change iscz1Decode _ _ = _
    rw [keyState_eq prev_valid n_le]
    change iscz1Decode _ ((iscz1Encode _ x).2 ++ tail) = _
    rw [decoded, keyAfter, valid.2]
  two_le prev x prev_valid valid := by
    have n_le : n ≤ 5 := valid.2 ▸ valid.1.le_max
    refine iscz1Encode_length_ge valid.1 ?_
    rw [keyState_length prev_valid n_le]
    exact valid.1.le_max
  -- a leader and five numbers of 63 bits
  codeMax := 46
  length_le prev x prev_valid valid := by
    have n_le : n ≤ 5 := valid.2 ▸ valid.1.le_max
    refine iscz1Encode_length_le valid.1 ?_
    rw [keyState_length prev_valid n_le]
    exact valid.1.le_max
  restart := 46
  length_restart prev x prev_valid valid := by
    refine (iscz1Encode_length_le valid.1 ?_).trans (Nat.le_add_left _ _)
    exact valid.1.le_max
  length_mono prev x z before x_valid z_valid lt := by
    have prev_valid : ∀ y ∈ prev, y.Valid ∧ y.length = n := fun y mem => (before y mem).1
    have after_eq := keyEncode_length (keyValid_some x_valid) z_valid
    rw [keyEncode_length prev_valid z_valid]
    refine after_eq.trans_le ?_
    exact deltaSize_mono_left (keyBefore_le before x_valid.2) lt
      ((keyBefore_length prev_valid).trans z_valid.2.symm) (x_valid.2.trans z_valid.2.symm)
      (by rw [Nat.zero_add, z_valid.2]) (z_valid.2 ▸ z_valid.1.le_max)
  length_skip prev x z before x_valid z_valid lt := by
    have prev_valid : ∀ y ∈ prev, y.Valid ∧ y.length = n := fun y mem => (before y mem).1
    have after_eq := keyEncode_length (keyValid_some x_valid) z_valid
    rw [keyEncode_length prev_valid z_valid, keyEncode_length prev_valid x_valid]
    refine le_of_le_of_eq ?_ (congrArg _ after_eq.symm)
    exact deltaSize_triangle (keyBefore_le before x_valid.2) lt.le
      ((keyBefore_length prev_valid).trans z_valid.2.symm) (x_valid.2.trans z_valid.2.symm)
      (by rw [Nat.zero_add, z_valid.2]) (z_valid.2 ▸ z_valid.1.le_max)

end

end Zebra
