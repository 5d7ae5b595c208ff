import Mathlib.Data.List.Sort

/-!
# Comparison functions

A comparison function as `qsort` takes it: negative, zero or positive, and what it says must be
consistent.  Comparing by one function and then by another is consistent again, and sorting by such
a function orders a list.
-/

namespace Zebra

open List

/-- The answers of a comparison function are those of a total preorder. -/
structure Comparator {α : Type} (cmp : α → α → Int) : Prop where
  swap : ∀ a b, cmp a b < 0 ↔ 0 < cmp b a
  trans : ∀ a b c, cmp a b ≤ 0 → cmp b c ≤ 0 → cmp a c ≤ 0

namespace Comparator

variable {α β : Type} {cmp first second : α → α → Int}

theorem total (law : Comparator cmp) (a b : α) : cmp a b ≤ 0 ∨ cmp b a ≤ 0 := by
  have swap := law.swap b a
  omega

theorem refl (law : Comparator cmp) (a : α) : cmp a a ≤ 0 :=
  (law.total a a).elim id id

theorem zero_symm (law : Comparator cmp) {a b : α} (zero : cmp a b = 0) : cmp b a = 0 := by
  have forward := law.swap a b
  have backward := law.swap b a
  omega

theorem zero_trans (law : Comparator cmp) {a b c : α} (left : cmp a b = 0) (right : cmp b c = 0) :
    cmp a c = 0 := by
  have le := law.trans a b c left.le right.le
  have ge := law.trans c b a (law.zero_symm right).le (law.zero_symm left).le
  have swap := law.swap a c
  omega

/-- A function that compares the values of `f`. -/
theorem of_lt {γ : Type} [LinearOrder γ] (f : α → γ)
    (neg : ∀ a b, cmp a b < 0 ↔ f a < f b) (pos : ∀ a b, 0 < cmp a b ↔ f b < f a) :
    Comparator cmp where
  swap a b := (neg a b).trans (pos b a).symm
  trans a b c le₁ le₂ := by
    have le_ab : f a ≤ f b := le_of_not_gt fun lt => le₁.not_gt ((pos a b).mpr lt)
    have le_bc : f b ≤ f c := le_of_not_gt fun lt => le₂.not_gt ((pos b c).mpr lt)
    exact le_of_not_gt fun lt => (le_ab.trans le_bc).not_gt ((pos a c).mp lt)

theorem comap (law : Comparator cmp) (f : β → α) : Comparator fun a b => cmp (f a) (f b) where
  swap a b := law.swap (f a) (f b)
  trans a b c := law.trans (f a) (f b) (f c)

theorem flip (law : Comparator cmp) : Comparator fun a b => cmp b a where
  swap a b := law.swap b a
  trans a b c le₁ le₂ := law.trans c b a le₂ le₁

theorem lex (law₁ : Comparator first) (law₂ : Comparator second) :
    Comparator fun a b => if first a b ≠ 0 then first a b else second a b where
  swap a b := by
    have swap₁ := law₁.swap a b
    have swap₁' := law₁.swap b a
    have swap₂ := law₂.swap a b
    split <;> split <;> omega
  trans a b c := by
    have le := law₁.trans a b c
    have back := law₁.trans b c a
    have front := law₁.trans c a b
    have zero := fun left right => law₁.zero_trans (a := a) (b := b) (c := c) left right
    have le₂ := law₂.trans a b c
    have swap_ab := law₁.swap a b
    have swap_bc := law₁.swap b c
    have swap_ca := law₁.swap c a
    have swap_ba := law₁.swap b a
    have swap_cb := law₁.swap c b
    have swap_ac := law₁.swap a c
    split <;> split <;> split <;> omega

/-- In an ordered list without repetitions every element is below all later ones. -/
theorem pairwise_neg (law : Comparator cmp) {l : List α} (le : l.Pairwise fun a b => cmp a b ≤ 0)
    (ne : l.IsChain fun a b => cmp a b ≠ 0) : l.Pairwise fun a b => cmp a b < 0 := by
  induction l with
  | nil => exact List.Pairwise.nil
  | cons a l induction =>
    obtain ⟨a_le, le⟩ := pairwise_cons.mp le
    cases l with
    | nil => exact pairwise_singleton _ _
    | cons b l =>
      obtain ⟨ab_ne, ne⟩ := isChain_cons_cons.mp ne
      have lt := induction le ne
      have ab := a_le b mem_cons_self
      refine pairwise_cons.mpr ⟨fun c mem => ?_, lt⟩
      rcases mem_cons.mp mem with rfl | mem
      · omega
      · -- otherwise `c` would not be above `b`
        have bc := (pairwise_cons.mp lt).1 c mem
        by_contra ge
        have ac : cmp a c ≤ 0 := a_le c (mem_cons_of_mem _ mem)
        have ca : cmp c a ≤ 0 := (law.zero_symm (by omega)).le
        have cb := law.trans _ _ _ ca ab
        have swap := law.swap b c
        omega

end Comparator

/-- `qsort`: any result in order would do, since elements that compare equal are equal wherever this
is used. -/
def qsort {α : Type} (cmp : α → α → Int) (l : List α) : List α :=
  l.insertionSort fun a b => cmp a b ≤ 0

theorem qsort_perm {α : Type} (cmp : α → α → Int) (l : List α) : (qsort cmp l).Perm l :=
  perm_insertionSort _ l

theorem Comparator.pairwise_qsort {α : Type} {cmp : α → α → Int} (law : Comparator cmp)
    (l : List α) : (qsort cmp l).Pairwise fun a b => cmp a b ≤ 0 := by
  have total : Std.Total fun a b => cmp a b ≤ 0 := ⟨law.total⟩
  have trans : IsTrans α fun a b => cmp a b ≤ 0 := ⟨law.trans⟩
  exact pairwise_insertionSort _ l

end Zebra
