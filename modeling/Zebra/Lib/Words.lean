import Mathlib.Computability.Language

/-!
# Words of languages by their first letter

How the first letter of a word of a product or a closure is taken off.
-/

namespace Zebra

open Language

variable {α : Type} {l m : Language α} {a : α} {w : List α}

theorem nil_mem_mul : [] ∈ l * m ↔ [] ∈ l ∧ [] ∈ m := by
  simp [mem_mul]

theorem cons_mem_mul :
    a :: w ∈ l * m ↔ (∃ u v, a :: u ∈ l ∧ v ∈ m ∧ u ++ v = w) ∨ ([] ∈ l ∧ a :: w ∈ m) := by
  rw [mem_mul]
  constructor
  · rintro ⟨u, u_mem, v, v_mem, eq⟩
    cases u with
    | nil => exact .inr ⟨u_mem, eq ▸ v_mem⟩
    | cons b u =>
      obtain ⟨rfl, rfl⟩ := List.cons.inj eq
      exact .inl ⟨u, v, u_mem, v_mem, rfl⟩
  · rintro (⟨u, v, u_mem, v_mem, rfl⟩ | ⟨nil_mem, mem⟩)
    · exact ⟨a :: u, u_mem, v, v_mem, rfl⟩
    · exact ⟨[], nil_mem, a :: w, mem, rfl⟩

theorem cons_mem_kstar : a :: w ∈ KStar.kstar l ↔ ∃ u v, a :: u ∈ l ∧ v ∈ KStar.kstar l ∧
    u ++ v = w := by
  constructor
  · intro mem
    rw [kstar_def_nonempty] at mem
    obtain ⟨words, eq, words_mem⟩ := mem
    cases words with
    | nil => simp at eq
    | cons word words =>
      obtain ⟨word_mem, ne⟩ := words_mem word List.mem_cons_self
      cases word with
      | nil => exact absurd rfl ne
      | cons b u =>
        obtain ⟨rfl, rfl⟩ := List.cons.inj eq
        exact ⟨u, words.flatten, word_mem,
          join_mem_kstar fun y mem => (words_mem y (List.mem_cons_of_mem _ mem)).1, rfl⟩
  · rintro ⟨u, v, u_mem, v_mem, rfl⟩
    rw [← one_add_self_mul_kstar_eq_kstar, mem_add]
    exact .inr (mem_mul.mpr ⟨a :: u, u_mem, v, v_mem, rfl⟩)

theorem mul_kstar_cons :
    a :: w ∈ l * KStar.kstar l ↔ ∃ u v, a :: u ∈ l ∧ v ∈ KStar.kstar l ∧ u ++ v = w := by
  rw [cons_mem_mul, cons_mem_kstar]
  exact ⟨fun mem => mem.elim id And.right, .inl⟩

end Zebra
