/-!
# Computations with fuel

A loop of the source is a function of the number of rounds it may take, `none` when they do not
suffice.  It settles on a result that every sufficient number of rounds gives.
-/

namespace Zebra

variable {α β : Type}

/-- Every sufficient number of rounds gives `result`. -/
def Settles (run : Nat → Option α) (result : α) : Prop :=
  ∃ enough, ∀ fuel, enough ≤ fuel → run fuel = some result

namespace Settles

theorem pure (result : α) : Settles (fun _ => some result) result :=
  ⟨0, fun _ _ => rfl⟩

theorem bind {run : Nat → Option α} {next : Nat → α → Option β} {middle : α} {result : β}
    (first : Settles run middle) (second : Settles (fun fuel => next fuel middle) result) :
    Settles (fun fuel => run fuel >>= next fuel) result := by
  obtain ⟨enough₁, settled₁⟩ := first
  obtain ⟨enough₂, settled₂⟩ := second
  refine ⟨max enough₁ enough₂, fun fuel le => ?_⟩
  simp only [settled₁ fuel (by omega)]
  exact settled₂ fuel (by omega)

theorem map {run : Nat → Option α} {middle : α} (f : α → β) (settled : Settles run middle) :
    Settles (fun fuel => (run fuel).map f) (f middle) := by
  obtain ⟨enough, settled⟩ := settled
  exact ⟨enough, fun fuel le => by simp only [settled fuel le, Option.map_some]⟩

theorem succ {run : Nat → Option α} {result : α}
    (settled : Settles (fun fuel => run (fuel + 1)) result) : Settles run result := by
  obtain ⟨enough, settled⟩ := settled
  refine ⟨enough + 1, fun fuel le => ?_⟩
  obtain ⟨fuel, rfl⟩ : ∃ before, fuel = before + 1 := ⟨fuel - 1, by omega⟩
  exact settled fuel (by omega)

/-- A round that computes `middle` and goes on from there. -/
theorem step {run : Nat → Option β} {first : Nat → Option α} {next : Nat → α → Option β}
    {middle : α} {result : β} (round : ∀ fuel, run (fuel + 1) = first fuel >>= next fuel)
    (settled : Settles first middle) (rest : Settles (fun fuel => next fuel middle) result) :
    Settles run result := by
  refine succ ?_
  simp only [round]
  exact settled.bind rest

/-- Two sufficient numbers of rounds give one result. -/
theorem unique {run : Nat → Option α} {result₁ result₂ : α} (settled₁ : Settles run result₁)
    (settled₂ : Settles run result₂) : result₁ = result₂ := by
  obtain ⟨enough₁, settled₁⟩ := settled₁
  obtain ⟨enough₂, settled₂⟩ := settled₂
  have left := settled₁ (max enough₁ enough₂) (by omega)
  have right := settled₂ (max enough₁ enough₂) (by omega)
  exact Option.some.inj (left.symm.trans right)

end Settles

/-- A computation that does not fail has a first part that does not. -/
theorem bind_eq_ok {ε α β : Type} {x : Except ε α} {f : α → Except ε β} {b : β}
    (run : (x >>= f) = .ok b) : ∃ a, x = .ok a ∧ f a = .ok b := by
  cases x with
  | error e => cases run
  | ok a => exact ⟨a, rfl, run⟩

end Zebra
