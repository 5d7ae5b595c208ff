import Mathlib.Data.List.Nodup

/-!
# Chains of numbers

A chain is given by its first number and by which number follows which; 0 ends it.
-/

namespace Zebra

inductive Follows (next : Nat → Nat) : Nat → List Nat → Prop where
  | nil : Follows next 0 []
  | cons {number : Nat} {rest : List Nat} (named : number ≠ 0)
      (follows : Follows next (next number) rest) : Follows next number (number :: rest)

namespace Follows

variable {next other : Nat → Nat} {start : Nat} {pre : List Nat}

theorem congr (follows : Follows next start pre) (same : ∀ b ∈ pre, other b = next b) :
    Follows other start pre := by
  induction follows with
  | nil => exact nil
  | @cons number rest named _ induction =>
    apply cons named
    rw [same number (List.mem_cons_self ..)]
    exact induction fun b mem => same b (.tail _ mem)

theorem append {last number : Nat} (follows : Follows next start pre) (nodup : pre.Nodup)
    (ends : pre.getLast? = some last) (named : number ≠ 0) (link : other last = number)
    (stop : other number = 0) (same : ∀ b ∈ pre, b ≠ last → other b = next b) :
    Follows other start (pre ++ [number]) := by
  induction follows with
  | nil => cases ends
  | @cons b rest nonzero follows induction =>
    cases rest with
    | nil =>
      have only : b = last := Option.some.inj ends
      subst only
      apply cons nonzero
      rw [link]
      apply cons named
      rw [stop]
      exact nil
    | cons c rest =>
      have ends' : (c :: rest).getLast? = some last := by
        rw [← ends, List.getLast?_cons_cons]
      have apart : b ≠ last := by
        intro eq
        apply (List.nodup_cons.mp nodup).1
        rw [eq]
        exact List.mem_of_getLast? ends'
      apply cons nonzero
      rw [same b (List.mem_cons_self ..) apart]
      exact induction (List.nodup_cons.mp nodup).2 ends'
        fun d mem => same d (.tail _ mem)

theorem start_nil (follows : Follows next start []) : start = 0 := by
  cases follows
  rfl

theorem start_eq {number : Nat} {rest : List Nat} (follows : Follows next start (number :: rest)) :
    start = number ∧ number ≠ 0 ∧ Follows next (next number) rest := by
  cases follows with
  | cons named follows => exact ⟨rfl, named, follows⟩

end Follows

end Zebra
