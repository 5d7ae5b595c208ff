import Zebra.Keys.KeyOrder

/-!
# Key control

`rset.h`: all that result sets know of their keys is how they compare and how much of a difference
makes another record, the scope.  The size of a difference tells the level at which two keys first
differ, which is why keys of one record are an equivalence class.
-/

namespace Zebra.Rset

/-- `struct rset_key_control`, and the laws by which its comparison tells levels. -/
structure KeyControl (Key : Type) where
  cmp : Key → Key → Int
  /-- `scope`: all result sets are created with the scope of their key control. -/
  scope : Int
  /-- `get_segment`, if segments are in use. -/
  getSegment : Option (Key → Int)
  scope_pos : 0 < scope
  swap : ∀ a b, cmp b a = -cmp a b
  /-- Along a chain the first level that differs is the outermost of those on the way. -/
  chain : ∀ a b c, cmp a b ≤ 0 → cmp b c ≤ 0 → cmp a c = min (cmp a b) (cmp b c)

namespace KeyControl

variable {Key : Type} (kc : KeyControl Key)

/-- Two keys of one record: they are equal within the scope. -/
def Near (a b : Key) : Prop := -kc.scope < kc.cmp a b ∧ kc.cmp a b < kc.scope

instance (a b : Key) : Decidable (kc.Near a b) := inferInstanceAs (Decidable (_ ∧ _))

theorem cmp_self (a : Key) : kc.cmp a a = 0 := by
  have swap := kc.swap a a
  omega

variable {a b c : Key}

theorem le_trans (le₁ : kc.cmp a b ≤ 0) (le₂ : kc.cmp b c ≤ 0) : kc.cmp a c ≤ 0 := by
  have chain := kc.chain a b c le₁ le₂
  omega

theorem near_refl (a : Key) : kc.Near a a := by
  have zero := kc.cmp_self a
  have pos := kc.scope_pos
  exact ⟨by omega, by omega⟩

theorem near_symm (near : kc.Near a b) : kc.Near b a := by
  have swap := kc.swap a b
  exact ⟨by have := near.2; omega, by have := near.1; omega⟩

/-- Where three keys stand to one another: the order of any two follows from the third. -/
theorem near_trans (near₁ : kc.Near a b) (near₂ : kc.Near b c) : kc.Near a c := by
  obtain ⟨low₁, high₁⟩ := near₁
  obtain ⟨low₂, high₂⟩ := near₂
  have swap_ab := kc.swap a b
  have swap_bc := kc.swap b c
  have swap_ac := kc.swap a c
  have abc := kc.chain a b c
  have acb := kc.chain a c b
  have bac := kc.chain b a c
  have bca := kc.chain b c a
  have cab := kc.chain c a b
  have cba := kc.chain c b a
  exact ⟨by omega, by omega⟩

/-- A key that is not of `a`'s record and not before it is a scope beyond. -/
theorem beyond (le : kc.cmp a b ≤ 0) (far : ¬kc.Near a b) : kc.cmp a b ≤ -kc.scope := by
  have pos := kc.scope_pos
  by_contra lt
  exact far ⟨by omega, by omega⟩

theorem far_of_beyond (le : kc.cmp a b ≤ -kc.scope) : ¬kc.Near a b :=
  fun near => by have := near.1; omega

/-- What is a scope beyond a key is a scope beyond all keys of its record. -/
theorem beyond_of_near (near : kc.Near a b) (le : kc.cmp a c ≤ -kc.scope) :
    kc.cmp b c ≤ -kc.scope := by
  obtain ⟨low, high⟩ := near
  have pos := kc.scope_pos
  have swap_ab := kc.swap a b
  have swap_bc := kc.swap b c
  have abc := kc.chain a b c
  have bac := kc.chain b a c
  have acb := kc.chain a c b
  omega

theorem beyond_mono (le : kc.cmp a b ≤ -kc.scope) (next : kc.cmp b c ≤ 0) :
    kc.cmp a c ≤ -kc.scope := by
  have pos := kc.scope_pos
  have chain := kc.chain a b c (by omega) next
  omega

end KeyControl

abbrev LevelKey (levels : Nat) := { key : ItKey // key.length = levels }

instance (levels : Nat) : Inhabited (LevelKey levels) :=
  ⟨List.replicate levels 0, List.length_replicate⟩

/-- The loop looks at no more levels than it is given. -/
theorem keyCompareFrom_bounds (rest : Nat) (i1 i2 : ItKey) :
    -(rest : Int) ≤ keyCompareFrom rest i1 i2 ∧ keyCompareFrom rest i1 i2 ≤ rest := by
  induction rest generalizing i1 i2 with
  | zero => simp [keyCompareFrom]
  | succ rest ih =>
    have bounds := ih i1.tail i2.tail
    simp only [keyCompareFrom]
    split
    · omega
    · split <;> omega

theorem keyCompareFrom_chain (rest : Nat) (i1 i2 i3 : ItKey) (le₁ : keyCompareFrom rest i1 i2 ≤ 0)
    (le₂ : keyCompareFrom rest i2 i3 ≤ 0) :
    keyCompareFrom rest i1 i3 = min (keyCompareFrom rest i1 i2) (keyCompareFrom rest i2 i3) := by
  induction rest generalizing i1 i2 i3 with
  | zero => rfl
  | succ rest ih =>
    have tails := ih i1.tail i2.tail i3.tail
    have bounds₁ := keyCompareFrom_bounds rest i1.tail i2.tail
    have bounds₂ := keyCompareFrom_bounds rest i2.tail i3.tail
    simp only [keyCompareFrom] at le₁ le₂ ⊢
    grind

/-- `key_compare` on keys of one number of levels, as `zebra_key_control_create` sets it up without
segments. -/
def itKeyControl (levels : Nat) : KeyControl (LevelKey levels) where
  cmp a b := keyCompare a.val b.val
  scope := 2
  getSegment := none
  scope_pos := by decide
  swap a b := by
    simp only [keyCompare, a.property, b.property]
    exact keyCompareFrom_swap _ _ _
  chain a b c := by
    simp only [keyCompare, a.property, b.property, c.property]
    exact keyCompareFrom_chain _ _ _ _

end Zebra.Rset
