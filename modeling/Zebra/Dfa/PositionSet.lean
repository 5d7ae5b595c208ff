import Mathlib.Data.List.Sort

/-!
# Position sets

`set.c`: a set of positions is a list of numbers in ascending order, so that equal sets are equal
lists.
-/

namespace Zebra.Dfa

open List

/-- `DFASet`: the values along the list. -/
abbrev DFASet := List Nat

def mkDFASet : DFASet := []

def addDFASet : DFASet → Nat → DFASet
  | [], n => [n]
  | value :: s, n =>
    if value < n then value :: addDFASet s n
    else if value = n then value :: s
    else n :: value :: s

/-- `union_DFASet`, and `merge_DFASet`, which does the same without reusing the elements of the
first set. -/
def unionDFASet : DFASet → DFASet → DFASet
  | [], s2 => s2
  | s1, [] => s1
  | v1 :: s1, v2 :: s2 =>
    if v1 < v2 then v1 :: unionDFASet s1 (v2 :: s2)
    else if v1 > v2 then v2 :: unionDFASet (v1 :: s1) s2
    else v1 :: unionDFASet s1 s2

@[simp] theorem unionDFASet_nil_left (s : DFASet) : unionDFASet [] s = s := by
  unfold unionDFASet
  rfl

@[simp] theorem mem_unionDFASet {s1 s2 : DFASet} {n : Nat} :
    n ∈ unionDFASet s1 s2 ↔ n ∈ s1 ∨ n ∈ s2 := by
  fun_induction unionDFASet s1 s2 with
  | case1 s2 => simp
  | case2 s1 _ => simp
  | case3 v1 s1 v2 s2 lt ih => simp [ih, or_assoc]
  | case4 v1 s1 v2 s2 _ gt ih =>
    rw [mem_cons, ih, mem_cons, mem_cons]
    exact or_left_comm
  | case5 v1 s1 v2 s2 _ _ ih =>
    obtain rfl : v1 = v2 := by omega
    rw [mem_cons, ih, mem_cons, mem_cons]
    exact or_or_distrib_left

def Ascending (s : DFASet) : Prop := s.Pairwise (· < ·)

theorem Ascending.unionDFASet {s1 s2 : DFASet} (ascending₁ : Ascending s1)
    (ascending₂ : Ascending s2) : Ascending (unionDFASet s1 s2) := by
  fun_induction Dfa.unionDFASet s1 s2 with
  | case1 s2 => exact ascending₂
  | case2 s1 _ => exact ascending₁
  | case3 v1 s1 v2 s2 lt ih =>
    obtain ⟨below₁, ascending₁⟩ := pairwise_cons.mp ascending₁
    obtain ⟨below₂, -⟩ := pairwise_cons.mp ascending₂
    refine pairwise_cons.mpr ⟨fun n mem => ?_, ih ascending₁ ascending₂⟩
    rcases mem_unionDFASet.mp mem with mem | mem
    · exact below₁ n mem
    · rcases mem_cons.mp mem with rfl | mem
      · exact lt
      · exact lt.trans (below₂ n mem)
  | case4 v1 s1 v2 s2 _ gt ih =>
    obtain ⟨below₁, -⟩ := pairwise_cons.mp ascending₁
    obtain ⟨below₂, ascending₂'⟩ := pairwise_cons.mp ascending₂
    refine pairwise_cons.mpr ⟨fun n mem => ?_, ih ascending₁ ascending₂'⟩
    rcases mem_unionDFASet.mp mem with mem | mem
    · rcases mem_cons.mp mem with rfl | mem
      · exact gt
      · exact lt_trans gt (below₁ n mem)
    · exact below₂ n mem
  | case5 v1 s1 v2 s2 _ _ ih =>
    obtain rfl : v1 = v2 := by omega
    obtain ⟨below₁, ascending₁⟩ := pairwise_cons.mp ascending₁
    obtain ⟨below₂, ascending₂⟩ := pairwise_cons.mp ascending₂
    refine pairwise_cons.mpr ⟨fun n mem => ?_, ih ascending₁ ascending₂⟩
    exact (mem_unionDFASet.mp mem).elim (below₁ n) (below₂ n)

theorem Ascending.eq {s1 s2 : DFASet} (ascending₁ : Ascending s1) (ascending₂ : Ascending s2)
    (same : ∀ n, n ∈ s1 ↔ n ∈ s2) : s1 = s2 :=
  List.Perm.eq_of_pairwise' ascending₁ ascending₂
    ((perm_ext_iff_of_nodup (ascending₁.imp fun lt => lt.ne) (ascending₂.imp fun lt => lt.ne)).mpr
      same)

end Zebra.Dfa
