import Mathlib.Data.List.Perm.Basic

/-!
# Paired lists

Two lists whose elements stand in a relation place by place, and what happens to them when the
element at one place is replaced.
-/

namespace Zebra

variable {α β : Type} {R : α → β → Prop} {l₁ : List α} {l₂ : List β}

theorem forall₂_set (paired : List.Forall₂ R l₁ l₂) (i : Nat) {a : α} {b : β} (new : R a b) :
    List.Forall₂ R (l₁.set i a) (l₂.set i b) := by
  induction paired generalizing i with
  | nil => exact .nil
  | cons head tail ih =>
    cases i with
    | zero => exact .cons new tail
    | succ i => exact .cons head (ih i)

theorem forall₂_getElem? (paired : List.Forall₂ R l₁ l₂) {i : Nat} {a : α} (get : l₁[i]? = some a) :
    ∃ b, l₂[i]? = some b ∧ R a b := by
  induction paired generalizing i with
  | nil => simp at get
  | cons head tail ih =>
    cases i with
    | zero =>
      simp only [List.getElem?_cons_zero, Option.some.injEq] at get
      exact ⟨_, rfl, get ▸ head⟩
    | succ i => exact ih get

theorem forall₂_mem_left (paired : List.Forall₂ R l₁ l₂) {a : α} (mem : a ∈ l₁) :
    ∃ b ∈ l₂, R a b := by
  obtain ⟨i, get⟩ := List.mem_iff_getElem?.mp mem
  obtain ⟨b, get', related⟩ := forall₂_getElem? paired get
  exact ⟨b, List.mem_of_getElem? get', related⟩

theorem forall₂_mem_right (paired : List.Forall₂ R l₁ l₂) {b : β} (mem : b ∈ l₂) :
    ∃ a ∈ l₁, R a b := by
  induction paired with
  | nil => simp at mem
  | cons head tail ih =>
    rcases List.mem_cons.mp mem with rfl | mem
    · exact ⟨_, .head _, head⟩
    · obtain ⟨a, a_mem, related⟩ := ih mem
      exact ⟨a, .tail _ a_mem, related⟩

theorem forall₂_imp_mem {S : α → β → Prop} (paired : List.Forall₂ R l₁ l₂)
    (imp : ∀ a ∈ l₁, ∀ b ∈ l₂, R a b → S a b) : List.Forall₂ S l₁ l₂ := by
  induction paired with
  | nil => exact .nil
  | cons head tail ih =>
    refine .cons (imp _ List.mem_cons_self _ List.mem_cons_self head) (ih fun a a_mem b b_mem => ?_)
    exact imp a (.tail _ a_mem) b (.tail _ b_mem)

theorem perm_cons_eraseIdx {i : Nat} {a : α} (get : l₁[i]? = some a) :
    l₁.Perm (a :: l₁.eraseIdx i) := by
  obtain ⟨lt, rfl⟩ := List.getElem?_eq_some_iff.mp get
  exact (List.getElem_cons_eraseIdx_perm lt).symm

theorem set_perm {i : Nat} {a : α} (get : l₁[i]? = some a) (new : α) :
    (l₁.set i new).Perm (new :: l₁.eraseIdx i) :=
  List.set_perm_cons_eraseIdx (List.getElem?_eq_some_iff.mp get).1 new

end Zebra
