import Mathlib.Algebra.BigOperators.Ring.Finset
import Mathlib.Data.Fintype.BigOperators

/-!
# Tallies

The number of the members of a finite type that a test accepts, and how it changes when the test
changes at one member.
-/

namespace Zebra

open Finset

variable {ι : Type} [Fintype ι]

/-- The number of members that `f` accepts. -/
def tally (f : ι → Bool) : Nat :=
  (univ.filter fun i => f i = true).card

theorem tally_eq_sum (f : ι → Bool) : tally f = ∑ i, (f i).toNat := by
  rw [tally, card_filter]
  apply sum_congr rfl
  intro i _
  cases f i <;> rfl

theorem tally_eq_zero {f : ι → Bool} : tally f = 0 ↔ ∀ i, f i = false := by
  simp [tally, filter_eq_empty_iff]

theorem tally_pos {f : ι → Bool} : tally f ≠ 0 ↔ ∃ i, f i = true := by
  rw [Ne, tally_eq_zero, not_forall]
  apply exists_congr
  intro i
  rw [Bool.not_eq_false]

/-- Two tests that exclude each other are tallied on their own. -/
theorem tally_or {f g : ι → Bool} (apart : ∀ i, f i = true → g i = false) :
    tally (fun i => f i || g i) = tally f + tally g := by
  rw [tally_eq_sum, tally_eq_sum, tally_eq_sum, ← sum_add_distrib]
  apply sum_congr rfl
  intro i _
  cases accepted : f i with
  | false => rw [Bool.false_or, Bool.toNat_false, Nat.zero_add]
  | true => rw [apart i accepted, Bool.or_false, Bool.toNat_false, Nat.add_zero]

theorem tally_change {f g : ι → Bool} (i : ι) (same : ∀ k, k ≠ i → g k = f k) :
    tally g + (f i).toNat = tally f + (g i).toNat := by
  classical
  have rest : ∑ k ∈ univ.erase i, (g k).toNat = ∑ k ∈ univ.erase i, (f k).toNat :=
    sum_congr rfl fun k mem => by rw [same k (ne_of_mem_erase mem)]
  rw [tally_eq_sum, tally_eq_sum, ← add_sum_erase _ _ (mem_univ i),
    ← add_sum_erase _ (fun k => (f k).toNat) (mem_univ i), rest]
  omega

end Zebra
