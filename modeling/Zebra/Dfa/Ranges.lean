import Zebra.Dfa.States
import Zebra.Lib.Fold

/-!
# Cutting the characters into ranges

The inner loops of `mk_dfa_tran`: the first finds the next character that any position takes, the
second goes from there as far as all positions agree.
-/

namespace Zebra.Dfa

open List

def InRange (posar : Nat → Int × Int) (i : Nat) (c : Int) : Prop :=
  (posar i).1 ≤ c ∧ c ≤ (posar i).2

/-- Some position of `pos` takes the character and is followed by `q`. -/
def Leads (s : Trav) (pos : List Nat) (c : Int) (q : Nat) : Prop :=
  ∃ i ∈ pos, InRange s.posar i c ∧ q ∈ s.followpos i

def Ordered (posar : Nat → Int × Int) (pos : List Nat) : Prop :=
  ∀ i ∈ pos, (posar i).1 ≤ (posar i).2

variable {s : Trav} {posar : Nat → Int × Int} {pos : List Nat}

/-- What is known of `char_0` when some of the positions are checked. -/
structure Char0Spec (posar : Nat → Int × Int) (char1 : Int) (checked : List Nat) (char0 : Int) :
    Prop where
  le : char1 ≤ char0
  le_end : char0 ≤ charsetSize + 1
  before : ∀ i ∈ checked, ∀ c, char1 ≤ c → c < char0 → ¬InRange posar i c
  found : char0 ≤ charsetSize → ∃ i ∈ checked, InRange posar i char0

theorem findChar0_spec {char1 : Int} (ordered : Ordered posar pos)
    (small : char1 ≤ charsetSize + 1) :
    Char0Spec posar char1 pos (findChar0 posar pos char1) := by
  refine foldl_invariant (Char0Spec posar char1) ⟨small, le_rfl, by simp, fun le => ?_⟩ ?_
  · omega
  · intro checked char0 i mem spec
    have le_i := ordered i mem
    have le := spec.le
    have le_end := spec.le_end
    by_cases takes : (posar i).2 ≥ char1 ∧ (posar i).1 < char0
    · -- the position takes a character before `char0`
      have new : (if (posar i).1 < char1 then char1 else (posar i).1) = max char1 (posar i).1 := by
        rw [max_def]
        split <;> split <;> omega
      simp only [if_pos takes, new]
      refine ⟨le_max_left _ _, by omega, fun j j_mem c c_ge c_lt => ?_, fun _ => ⟨i, by simp, ?_⟩⟩
      · rcases mem_append.mp j_mem with j_mem | j_mem
        · exact spec.before j j_mem c c_ge (by omega)
        · obtain rfl := mem_singleton.mp j_mem
          rintro ⟨low, -⟩
          omega
      · exact ⟨le_max_right _ _, by omega⟩
    · rw [if_neg takes]
      refine ⟨le, le_end, fun j j_mem c c_ge c_lt => ?_, fun inside => ?_⟩
      · rcases mem_append.mp j_mem with j_mem | j_mem
        · exact spec.before j j_mem c c_ge c_lt
        · obtain rfl := mem_singleton.mp j_mem
          rintro ⟨low, high⟩
          omega
      · obtain ⟨j, j_mem, in_range⟩ := spec.found inside
        exact ⟨j, mem_append_left _ j_mem, in_range⟩

/-- What is known of `char_1` and the set when some of the positions are checked. -/
structure Char1Spec (s : Trav) (char0 : Int) (checked : List Nat) (range : Int × DFASet) :
    Prop where
  le : char0 ≤ range.1
  le_end : range.1 ≤ charsetSize
  agree : ∀ i ∈ checked, ∀ c, char0 ≤ c → c ≤ range.1 →
    (InRange s.posar i c ↔ InRange s.posar i char0)
  set : ∀ q, q ∈ range.2 ↔ Leads s checked char0 q

theorem findChar1_spec {char0 : Int} (ordered : Ordered s.posar pos) (small : char0 ≤ charsetSize) :
    Char1Spec s char0 pos (findChar1 s pos char0) := by
  refine foldl_invariant (Char1Spec s char0) ⟨small, le_rfl, by simp, fun q => ?_⟩ ?_
  · simp [mkDFASet, Leads]
  · intro checked range i mem spec
    have le_i := ordered i mem
    have le := spec.le
    have le_end := spec.le_end
    constructor
    · simp only
      split_ifs <;> omega
    · simp only
      split_ifs <;> omega
    · intro j j_mem c c_ge c_le
      have c_le_range : c ≤ range.1 := by
        simp only at c_le
        split_ifs at c_le <;> omega
      rcases mem_append.mp j_mem with j_mem | j_mem
      · exact spec.agree j j_mem c c_ge c_le_range
      · obtain rfl := mem_singleton.mp j_mem
        simp only at c_le
        simp only [InRange]
        split_ifs at c_le <;> omega
    · intro q
      have leads_concat : Leads s (checked ++ [i]) char0 q ↔
          Leads s checked char0 q ∨ (InRange s.posar i char0 ∧ q ∈ s.followpos i) := by
        simp [Leads, mem_append, or_and_right, exists_or]
      have in_range : InRange s.posar i char0 ↔
          (s.posar i).2 ≥ char0 ∧ (s.posar i).1 ≤ char0 := and_comm
      rw [leads_concat, in_range]
      by_cases takes : (s.posar i).2 ≥ char0 ∧ (s.posar i).1 ≤ char0
      · rw [if_pos takes, mem_unionDFASet, spec.set q, and_iff_right takes]
      · rw [if_neg takes, spec.set q, or_iff_left fun both => takes both.1]

theorem findChar1_ascending (ascending : ∀ p, Ascending (s.followpos p)) (char0 : Int) :
    Ascending (findChar1 s pos char0).2 := by
  refine foldl_invariant (fun _ (range : Int × DFASet) => Ascending range.2)
    (show Ascending [] from .nil) fun _ range i _ holds => ?_
  simp only
  split
  · exact holds.unionDFASet (ascending i)
  · exact holds

/-- A state has a rule if one of its positions accepts. -/
theorem rules_ne_zero (set : DFASet) :
    -(rules posar set).1 ≠ 0 ↔ ∃ value ∈ set, (posar value).1 < 0 := by
  have spec : ((rules posar set).1 ≤ 0) ∧
      ((rules posar set).1 ≠ 0 ↔ ∃ value ∈ set, (posar value).1 < 0) := by
    refine foldl_invariant (fun checked (ij : Int × Int) =>
      ij.1 ≤ 0 ∧ (ij.1 ≠ 0 ↔ ∃ value ∈ checked, (posar value).1 < 0)) (by simp) ?_
    rintro checked ⟨i, j⟩ value - ⟨le, iff⟩
    simp only [mem_append, mem_singleton, or_and_right, exists_or, exists_eq_left] at iff ⊢
    rw [← iff]
    split_ifs <;> simp only <;> omega
  simpa using spec.2

end Zebra.Dfa
