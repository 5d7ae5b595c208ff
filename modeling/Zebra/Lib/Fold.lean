/-!
# Loops over a list

What holds of the elements looked at so far and of the loop's variables, and is kept by a round,
holds at the end of all elements.
-/

namespace Zebra

theorem foldl_invariant {α β : Type} {l : List α} {f : β → α → β} {init : β}
    (P : List α → β → Prop) (start : P [] init)
    (step : ∀ checked b a, a ∈ l → P checked b → P (checked ++ [a]) (f b a)) :
    P l (l.foldl f init) := by
  suffices all : ∀ rest checked b, (∀ a ∈ rest, a ∈ l) → P checked b →
      P (checked ++ rest) (rest.foldl f b) from all l [] init (fun _ mem => mem) start
  intro rest
  induction rest with
  | nil =>
    intro checked b _ holds
    simpa using holds
  | cons a rest ih =>
    intro checked b mem holds
    have next := ih (checked ++ [a]) (f b a) (fun x x_mem => mem x (List.mem_cons_of_mem a x_mem))
      (step checked b a (mem a List.mem_cons_self) holds)
    simpa using next

end Zebra
