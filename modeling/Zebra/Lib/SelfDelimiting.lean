import Mathlib.Data.List.Basic

/-!
# Self-delimiting codes

A code whose words are read back whatever follows them.  Such a code partitions the strings that
begin with one of its words.
-/

namespace Zebra

variable {ι α : Type} {code : ι → List α} {decode : List α → Option ι}

/-- The decoder reads a word of the code back, whatever follows it. -/
def ReadsBack (code : ι → List α) (decode : List α → Option ι) : Prop :=
  ∀ (i : ι) (rest : List α), decode (code i ++ rest) = some i

theorem ReadsBack.unique (readsBack : ReadsBack code decode) {i j : ι} {s t : List α}
    (same : code i ++ s = code j ++ t) : i = j := by
  have first := readsBack i s
  rw [same, readsBack j t] at first
  exact (Option.some.inj first).symm

/-- A word of the code stands in front of exactly the strings of its own. -/
theorem ReadsBack.front_iff (readsBack : ReadsBack code decode) {i j : ι} {t : List α} :
    code i <+: code j ++ t ↔ i = j := by
  constructor
  · rintro ⟨s, same⟩
    exact readsBack.unique same
  · rintro rfl
    exact List.prefix_append _ _

theorem ReadsBack.front_word (readsBack : ReadsBack code decode) {i j : ι}
    (front : code i <+: code j) : i = j := by
  rw [← List.append_nil (code j)] at front
  exact readsBack.front_iff.mp front

/-- A run of letters is read back in front of a letter that ends it. -/
theorem takeWhile_append_stop {p : α → Bool} {w r : List α} {d : α}
    (inside : ∀ c ∈ w, p c = true) (stop : p d = false) :
    (w ++ d :: r).takeWhile p = w ∧ (w ++ d :: r).dropWhile p = d :: r := by
  have here : ¬ p d = true := by
    rw [stop]
    exact Bool.false_ne_true
  rw [List.takeWhile_append_of_pos inside, List.dropWhile_append_of_pos inside,
    List.takeWhile_cons_of_neg here, List.dropWhile_cons_of_neg here, List.append_nil]
  exact ⟨rfl, rfl⟩

end Zebra
