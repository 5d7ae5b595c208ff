import Mathlib.Data.List.Basic

/-!
# Longest fronts

Which front of a list is the longest at which a partial function is defined, by the first element of
the list.
-/

namespace Zebra

variable {α β : Type} {f : List α → Option β} {c : α} {s : List α} {n : Nat} {b : β}

/-- The front of length `n` is the longest of the fronts of `s` at which `f` is defined. -/
structure LongestFront (f : List α → Option β) (s : List α) (n : Nat) (b : β) : Prop where
  le : n ≤ s.length
  here : f (s.take n) = some b
  longer : ∀ m, n < m → m ≤ s.length → f (s.take m) = none

theorem LongestFront.unique (first : LongestFront f s n b) {m : Nat} {d : β}
    (second : LongestFront f s m d) : n = m ∧ b = d := by
  have same : n = m := by
    rcases Nat.lt_trichotomy n m with less | same | more
    · have none := first.longer m less second.le
      rw [second.here] at none
      cases none
    · exact same
    · have none := second.longer n more first.le
      rw [first.here] at none
      cases none
  subst same
  exact ⟨rfl, Option.some.inj (first.here.symm.trans second.here)⟩

theorem LongestFront.take (longest : LongestFront f s n b) {k : Nat} (within : n ≤ k) :
    LongestFront f (s.take k) n b where
  le := by
    rw [List.length_take]
    exact Nat.le_min.mpr ⟨within, longest.le⟩
  here := by
    rw [List.take_take, Nat.min_eq_left within]
    exact longest.here
  longer m less inside := by
    rw [List.length_take] at inside
    rw [List.take_take, Nat.min_eq_left (Nat.le_trans inside (Nat.min_le_left _ _))]
    exact longest.longer m less (Nat.le_trans inside (Nat.min_le_right _ _))

theorem LongestFront.cons (longest : LongestFront (fun p => f (c :: p)) s n b) :
    LongestFront f (c :: s) (n + 1) b where
  le := Nat.succ_le_succ longest.le
  here := longest.here
  longer m less within := by
    cases m with
    | zero => exact absurd less (Nat.not_lt_zero _)
    | succ m => exact longest.longer m (Nat.lt_of_succ_lt_succ less) (Nat.le_of_succ_le_succ within)

/-- Where no longer front is defined, it is the empty one or none. -/
theorem longestFront_zero (here : f [] = some b)
    (none : ∀ m, m ≤ s.length → f ((c :: s).take (m + 1)) = none) :
    LongestFront f (c :: s) 0 b where
  le := Nat.zero_le _
  here := here
  longer m less within := by
    cases m with
    | zero => exact absurd less (Nat.lt_irrefl 0)
    | succ m => exact none m (Nat.le_of_succ_le_succ within)

end Zebra
