import Mathlib.Data.List.Basic
import Mathlib.Order.Basic

/-!
# Binary search for an element that is hit

The search looks at the middle of what is left and stops where it hits; elsewhere it goes on above
elements that are less and below all others.
-/

namespace Zebra.BinarySearch

open Option

variable {α : Type} (hit less : α → Bool)

/-- The search from `low` up to before `top`; `fuel` is at least what is between them. -/
def search (xs : List α) : Nat → Nat → Nat → Option Nat
  | 0, _, _ => none
  | fuel + 1, low, top =>
    if low < top then
      let mid := (low + (top - 1)) / 2
      xs[mid]?.elim none fun x =>
        if hit x then some mid
        else if less x then search xs fuel (mid + 1) top
        else search xs fuel low mid
    else none

/-- Two elements in order: where the search goes on at one of them, the other is not hit on the side
that is left. -/
def Parted (x y : α) : Prop :=
  (hit x = false → less x = false → hit y = false) ∧ (hit y = false → less y = true → hit x = false)

variable {hit less}

theorem search_some {xs : List α} {fuel low top i : Nat}
    (found : search hit less xs fuel low top = some i) : ∃ x, xs[i]? = some x ∧ hit x = true := by
  induction fuel generalizing low top with
  | zero => cases found
  | succ fuel induction =>
    rw [search] at found
    dsimp only at found
    split at found
    · cases at_mid : xs[(low + (top - 1)) / 2]? with
      | none =>
        rw [at_mid] at found
        cases found
      | some x =>
        rw [at_mid, elim_some] at found
        split at found
        next is_hit =>
          obtain rfl := some.inj found
          exact ⟨x, at_mid, is_hit⟩
        · split at found
          · exact induction found
          · exact induction found
    · cases found

/-- In a list in order nothing is hit where the search does not find anything. -/
theorem search_none {xs : List α} (parted : xs.Pairwise (Parted hit less)) {fuel low top : Nat}
    (enough : top ≤ low + fuel) (inside : top ≤ xs.length)
    (found : search hit less xs fuel low top = none) {i : Nat} (above : low ≤ i) (below : i < top)
    {x : α} (at_i : xs[i]? = some x) : hit x = false := by
  induction fuel generalizing low top with
  | zero => omega
  | succ fuel induction =>
    have mid_lt : (low + (top - 1)) / 2 < xs.length := by omega
    rw [search, if_pos (by omega)] at found
    dsimp only at found
    rw [List.getElem?_eq_getElem mid_lt, elim_some] at found
    have i_lt : i < xs.length := by omega
    have x_eq : xs[i] = x := by
      rw [List.getElem?_eq_getElem i_lt] at at_i
      exact some.inj at_i
    have ordered := List.pairwise_iff_getElem.mp parted
    split at found
    next => cases found
    next not_hit =>
      have miss : hit xs[(low + (top - 1)) / 2] = false := Bool.eq_false_iff.mpr not_hit
      split at found
      next is_less =>
        obtain lower | rfl | upper := Nat.lt_trichotomy i ((low + (top - 1)) / 2)
        · exact x_eq ▸ (ordered i _ i_lt mid_lt lower).2 miss is_less
        · exact x_eq ▸ miss
        · exact induction (by omega) inside found upper below
      next not_less =>
        have greater : less xs[(low + (top - 1)) / 2] = false := Bool.eq_false_iff.mpr not_less
        obtain lower | rfl | upper := Nat.lt_trichotomy i ((low + (top - 1)) / 2)
        · exact induction (by omega) (by omega) found above lower
        · exact x_eq ▸ miss
        · exact x_eq ▸ (ordered _ i mid_lt i_lt upper).1 miss greater

end Zebra.BinarySearch
