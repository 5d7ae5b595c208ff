import Zebra.Lib.Comparator

/-!
# Merging lists

The least of the first elements is written, and of its list some of what follows is skipped, until
all lists are empty.  What is written is ordered if the lists are, and whatever is skipped only
behind an element that stands for it has such an element in the result.
-/

namespace Zebra

open Function List

variable {α : Type} {cmp : α → α → Int} {skip : α → List α → List α}

def Ascending (cmp : α → α → Int) (l : List α) : Prop := l.Pairwise fun a b => cmp a b ≤ 0

/-- What merging the lists may write, where `skip x rest` is what is left of `rest` behind `x`. -/
inductive Merging (cmp : α → α → Int) (skip : α → List α → List α) :
    (Nat → List α) → List α → Prop
  | nil {lists : Nat → List α} (empty : ∀ i, lists i = []) : Merging cmp skip lists []
  | cons {lists : Nat → List α} {i : Nat} {x : α} {rest out : List α} (head : lists i = x :: rest)
      (least : ∀ j y tail, lists j = y :: tail → cmp x y ≤ 0)
      (next : Merging cmp skip (Function.update lists i (skip x rest)) out) :
      Merging cmp skip lists (x :: out)

namespace Merging

def Suffixes (skip : α → List α → List α) : Prop := ∀ x rest, (skip x rest).Sublist rest

variable {lists : Nat → List α}

theorem ascending_update {i : Nat} {x : α} {rest : List α}
    (suffixes : Suffixes skip) (head : lists i = x :: rest)
    (ascending : ∀ j, Ascending cmp (lists j)) (j : Nat) :
    Ascending cmp (Function.update lists i (skip x rest) j) := by
  rcases eq_or_ne j i with rfl | other
  · rw [update_self]
    have whole := ascending j
    rw [head] at whole
    exact whole.of_cons.sublist (suffixes x rest)
  · rw [update_of_ne other]
    exact ascending j

variable {out : List α}

theorem mem (merging : Merging cmp skip lists out)
    (suffixes : Suffixes skip) {y : α} (written : y ∈ out) : ∃ i, y ∈ lists i := by
  induction merging with
  | nil => cases written
  | @cons lists i x rest out head _ _ induction =>
    rcases mem_cons.mp written with rfl | later
    · exact ⟨i, by rw [head]; exact mem_cons_self ..⟩
    · obtain ⟨j, mem⟩ := induction later
      refine ⟨j, ?_⟩
      rcases eq_or_ne j i with rfl | other
      · rw [update_self] at mem
        rw [head]
        exact .tail _ ((suffixes x rest).subset mem)
      · rwa [update_of_ne other] at mem

/-- What is in the lists is not below the least of the first elements. -/
theorem least_le (law : Comparator cmp) {x : α} (ascending : ∀ j, Ascending cmp (lists j))
    (least : ∀ j y tail, lists j = y :: tail → cmp x y ≤ 0) {j : Nat} {z : α} (mem : z ∈ lists j) :
    cmp x z ≤ 0 := by
  have order := ascending j
  cases whole : lists j with
  | nil =>
    rw [whole] at mem
    cases mem
  | cons y tail =>
    rw [whole] at mem order
    rcases mem_cons.mp mem with rfl | later
    · exact least j z tail whole
    · exact law.trans _ _ _ (least j y tail whole) (rel_of_pairwise_cons order later)

theorem ascending (law : Comparator cmp)
    (merging : Merging cmp skip lists out) (suffixes : Suffixes skip)
    (ascending : ∀ i, Ascending cmp (lists i)) : Ascending cmp out := by
  induction merging with
  | nil => exact List.Pairwise.nil
  | @cons lists i x rest out head least next induction =>
    have order := ascending_update suffixes head ascending
    apply List.Pairwise.cons _ (induction order)
    intro y written
    obtain ⟨j, mem⟩ := next.mem suffixes written
    have original : ∃ j, y ∈ lists j := by
      rcases eq_or_ne j i with rfl | other
      · rw [update_self] at mem
        refine ⟨j, ?_⟩
        rw [head]
        exact .tail _ ((suffixes x rest).subset mem)
      · rw [update_of_ne other] at mem
        exact ⟨j, mem⟩
    obtain ⟨j, mem⟩ := original
    exact least_le law ascending least mem

/-- For each element one is written that stands for it. -/
theorem covers {stands : α → α → Prop}
    (merging : Merging cmp skip lists out) (suffixes : Suffixes skip) (refl : ∀ x, stands x x)
    (skipped : ∀ x rest y, Ascending cmp (x :: rest) → y ∈ rest → y ∉ skip x rest → stands x y)
    (ascending : ∀ i, Ascending cmp (lists i)) {j : Nat} {y : α} (mem : y ∈ lists j) :
    ∃ x ∈ out, stands x y := by
  induction merging generalizing j with
  | nil empty =>
    rw [empty j] at mem
    cases mem
  | @cons lists i x rest out head least next induction =>
    have order := ascending_update suffixes head ascending
    have later : (∃ j, y ∈ Function.update lists i (skip x rest) j) →
        ∃ z ∈ x :: out, stands z y := by
      rintro ⟨j, mem⟩
      obtain ⟨z, written, holds⟩ := induction order mem
      exact ⟨z, .tail _ written, holds⟩
    rcases eq_or_ne j i with rfl | other
    · have whole := ascending j
      rw [head] at mem whole
      rcases mem_cons.mp mem with rfl | behind
      · exact ⟨y, mem_cons_self .., refl y⟩
      · rcases Classical.em (y ∈ skip x rest) with kept | gone
        · apply later
          refine ⟨j, ?_⟩
          rw [update_self]
          exact kept
        · exact ⟨x, mem_cons_self .., skipped x rest y whole behind gone⟩
    · apply later
      refine ⟨j, ?_⟩
      rw [update_of_ne other]
      exact mem

end Merging

end Zebra
