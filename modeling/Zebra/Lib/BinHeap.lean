import Mathlib.Order.Interval.Finset.Nat
import Zebra.Lib.Comparator

/-!
# Binary heaps

Heaps in level order, from position one on: a parent is never above its children.  Sifting swaps
along one path and restores the order that one position lacks.
-/

namespace Zebra.BinHeap

open Finset Function

variable {α : Type} {cmp : α → α → Int} {a : Nat → α} {n cur : Nat}

/-- The positions `1..n` are in heap order. -/
def Ordered (cmp : α → α → Int) (n : Nat) (a : Nat → α) : Prop :=
  ∀ i, 2 ≤ i → i ≤ n → cmp (a (i / 2)) (a i) ≤ 0

def swapAt (a : Nat → α) (i j : Nat) : Nat → α := a ∘ Equiv.swap i j

def siftUp (cmp : α → α → Int) : Nat → Nat → (Nat → α) → Nat → α
  | 0, _, a => a
  | fuel + 1, cur, a =>
    if cur / 2 ≠ 0 ∧ cmp (a (cur / 2)) (a cur) > 0 then
      siftUp cmp fuel (cur / 2) (swapAt a cur (cur / 2))
    else a

def lowerChild (cmp : α → α → Int) (n : Nat) (a : Nat → α) (cur : Nat) : Nat :=
  if 2 * cur < n ∧ cmp (a (2 * cur)) (a (2 * cur + 1)) > 0 then 2 * cur + 1 else 2 * cur

def siftDown (cmp : α → α → Int) (n : Nat) : Nat → Nat → (Nat → α) → Nat → α
  | 0, _, a => a
  | fuel + 1, cur, a =>
    if 2 * cur ≤ n then
      if cmp (a cur) (a (lowerChild cmp n a cur)) > 0 then
        siftDown cmp n fuel (lowerChild cmp n a cur) (swapAt a cur (lowerChild cmp n a cur))
      else a
    else a

/-- What is in the positions `1..n`. -/
def contents (n : Nat) (a : Nat → α) : Multiset α := (Finset.Icc 1 n).val.map a

@[simp] theorem swapAt_left (a : Nat → α) (i j : Nat) : swapAt a i j i = a j := by
  simp [swapAt]

@[simp] theorem swapAt_right (a : Nat → α) (i j : Nat) : swapAt a i j j = a i := by
  simp [swapAt]

theorem swapAt_of_ne (a : Nat → α) {i j k : Nat} (ne_left : k ≠ i) (ne_right : k ≠ j) :
    swapAt a i j k = a k := by
  simp [swapAt, Equiv.swap_apply_of_ne_of_ne ne_left ne_right]

theorem contents_swapAt {i j : Nat} (i_pos : 1 ≤ i) (i_le : i ≤ n) (j_pos : 1 ≤ j) (j_le : j ≤ n) :
    contents n (swapAt a i j) = contents n a := by
  have same : (Finset.Icc 1 n).map (Equiv.swap i j).toEmbedding = Finset.Icc 1 n := by
    refine map_perm fun k moved => ?_
    rw [coe_Icc, Set.mem_Icc]
    by_contra outside
    refine moved (Equiv.swap_apply_of_ne_of_ne ?_ ?_) <;> rintro rfl <;> omega
  have values := congrArg Finset.val same
  rw [map_val] at values
  rw [contents, swapAt, ← Multiset.map_map]
  exact congrArg (Multiset.map a) values

theorem contents_congr {b : Nat → α} (same : ∀ i, 1 ≤ i → i ≤ n → a i = b i) :
    contents n a = contents n b := by
  refine Multiset.map_congr rfl fun i mem => ?_
  obtain ⟨low, high⟩ := mem_Icc.mp (mem_val.mp mem)
  exact same i low high

theorem contents_succ (n : Nat) (a : Nat → α) :
    contents (n + 1) a = a (n + 1) ::ₘ contents n a := by
  have fresh : n + 1 ∉ Finset.Icc 1 n := by simp
  have more : Finset.Icc 1 (n + 1) = insert (n + 1) (Finset.Icc 1 n) := by
    ext i
    simp only [mem_Icc, mem_insert]
    omega
  rw [contents, more, insert_val_of_notMem fresh, Multiset.map_cons]
  rfl

theorem mem_contents {x : α} : x ∈ contents n a ↔ ∃ i, 1 ≤ i ∧ i ≤ n ∧ a i = x := by
  simp only [contents, Multiset.mem_map, mem_val, mem_Icc, and_assoc]

/-- The root changes places with the last position, which is then left out. -/
theorem contents_swap_last (n : Nat) (a : Nat → α) :
    contents (n + 1) a = a 1 ::ₘ contents n (swapAt a 1 (n + 1)) := by
  have swapped : contents (n + 1) (swapAt a 1 (n + 1)) = contents (n + 1) a :=
    contents_swapAt le_rfl (by omega) (by omega) le_rfl
  rw [← swapped, contents_succ, swapAt_right]

theorem exists_contents_root (n : Nat) (a : Nat → α) :
    ∃ others : Multiset α, ∀ b : Nat → α, (∀ i, 2 ≤ i → b i = a i) →
      contents (n + 1) b = b 1 ::ₘ others := by
  induction n with
  | zero => exact ⟨0, fun b _ => by simp [contents]⟩
  | succ n induction =>
    obtain ⟨others, split⟩ := induction
    refine ⟨a (n + 2) ::ₘ others, fun b same => ?_⟩
    rw [contents_succ, split b same, same (n + 1 + 1) (by omega), Multiset.cons_swap]

/-- In order but for the edge into `cur`, whose parent is not above the children of `cur`. -/
structure UpReady (cmp : α → α → Int) (n : Nat) (a : Nat → α) (cur : Nat) : Prop where
  others : ∀ i, 2 ≤ i → i ≤ n → i ≠ cur → cmp (a (i / 2)) (a i) ≤ 0
  grand : ∀ i, i ≤ n → i / 2 = cur → 2 ≤ cur → cmp (a (cur / 2)) (a i) ≤ 0

theorem UpReady.step (law : Comparator cmp) (ready : UpReady cmp n a cur) (cur_le : cur ≤ n)
    (parent_ne : cur / 2 ≠ 0) (above : cmp (a (cur / 2)) (a cur) > 0) :
    UpReady cmp n (swapAt a cur (cur / 2)) (cur / 2) := by
  have below : cmp (a cur) (a (cur / 2)) ≤ 0 := (law.total _ _).resolve_left (by omega)
  refine ⟨fun i low high ne => ?_, fun i high child two_le => ?_⟩
  · by_cases is_cur : i = cur
    · subst is_cur
      rw [swapAt_right, swapAt_left]
      exact below
    · rw [swapAt_of_ne a is_cur ne]
      by_cases under_cur : i / 2 = cur
      · rw [under_cur, swapAt_left]
        exact ready.grand i high under_cur (by omega)
      · by_cases sibling : i / 2 = cur / 2
        · rw [sibling, swapAt_right]
          exact law.trans _ _ _ below (sibling ▸ ready.others i low high is_cur)
        · rw [swapAt_of_ne a under_cur sibling]
          exact ready.others i low high is_cur
  · have above_parent : cmp (a (cur / 2 / 2)) (a (cur / 2)) ≤ 0 :=
      ready.others (cur / 2) two_le (by omega) (by omega)
    rw [swapAt_of_ne a (k := cur / 2 / 2) (by omega) (by omega)]
    by_cases is_cur : i = cur
    · subst is_cur
      rw [swapAt_left]
      exact above_parent
    · rw [swapAt_of_ne a is_cur (by omega)]
      exact law.trans _ _ _ above_parent (child ▸ ready.others i (by omega) high is_cur)

theorem siftUp_ordered (law : Comparator cmp) {fuel : Nat} (ready : UpReady cmp n a cur)
    (cur_le : cur ≤ n) (enough : cur ≤ fuel) : Ordered cmp n (siftUp cmp fuel cur a) := by
  induction fuel generalizing cur a with
  | zero => exact fun i low high => ready.others i low high (by omega)
  | succ fuel induction =>
    rw [siftUp]
    split
    · rename_i goes
      exact induction (ready.step law cur_le goes.1 goes.2) (by omega) (by omega)
    · rename_i stops
      intro i low high
      by_cases is_cur : i = cur
      · subst is_cur
        by_contra above
        exact stops ⟨by omega, by omega⟩
      · exact ready.others i low high is_cur

theorem siftUp_contents {fuel : Nat} (cur_le : cur ≤ n) :
    contents n (siftUp cmp fuel cur a) = contents n a := by
  induction fuel generalizing cur a with
  | zero => rfl
  | succ fuel induction =>
    rw [siftUp]
    split
    · rename_i goes
      rw [induction (by omega)]
      exact contents_swapAt (by omega) cur_le (by omega) (by omega)
    · rfl

theorem Ordered.upReady {b : Nat → α} (ordered : Ordered cmp n a) (same : ∀ i, i ≤ n → b i = a i) :
    UpReady cmp (n + 1) b (n + 1) := by
  refine ⟨fun i low high ne => ?_, fun i high child two_le => ?_⟩
  · rw [same i (by omega), same (i / 2) (by omega)]
    exact ordered i low (by omega)
  · omega

/-- In order but for the edges out of `cur`, whose parent is not above its children. -/
structure DownReady (cmp : α → α → Int) (n : Nat) (a : Nat → α) (cur : Nat) : Prop where
  others : ∀ i, 2 ≤ i → i ≤ n → i / 2 ≠ cur → cmp (a (i / 2)) (a i) ≤ 0
  grand : ∀ i, i ≤ n → i / 2 = cur → 2 ≤ cur → cmp (a (cur / 2)) (a i) ≤ 0

theorem lowerChild_spec (law : Comparator cmp) (child_le : 2 * cur ≤ n) :
    lowerChild cmp n a cur ≤ n ∧ lowerChild cmp n a cur / 2 = cur ∧
      2 * cur ≤ lowerChild cmp n a cur ∧
      ∀ i, i ≤ n → i / 2 = cur → cmp (a (lowerChild cmp n a cur)) (a i) ≤ 0 := by
  unfold lowerChild
  split
  · rename_i right
    refine ⟨by omega, by omega, by omega, fun i high child => ?_⟩
    have below : cmp (a (2 * cur + 1)) (a (2 * cur)) ≤ 0 := (law.total _ _).resolve_left (by omega)
    obtain rfl | rfl : i = 2 * cur ∨ i = 2 * cur + 1 := by omega
    · exact below
    · exact law.refl _
  · rename_i left
    refine ⟨child_le, by omega, le_rfl, fun i high child => ?_⟩
    obtain rfl | rfl : i = 2 * cur ∨ i = 2 * cur + 1 := by omega
    · exact law.refl _
    · by_contra above
      exact left ⟨by omega, by omega⟩

theorem DownReady.step (law : Comparator cmp) (ready : DownReady cmp n a cur) (cur_pos : 1 ≤ cur)
    (child_le : 2 * cur ≤ n) (above : cmp (a cur) (a (lowerChild cmp n a cur)) > 0) :
    DownReady cmp n (swapAt a cur (lowerChild cmp n a cur)) (lowerChild cmp n a cur) := by
  obtain ⟨le, child, ge, lowest⟩ := lowerChild_spec (a := a) law child_le
  generalize lowerChild cmp n a cur = c at *
  have below : cmp (a c) (a cur) ≤ 0 := (law.total _ _).resolve_left (by omega)
  refine ⟨fun i low high ne => ?_, fun i high under two_le => ?_⟩
  · by_cases is_c : i = c
    · subst is_c
      rw [child, swapAt_left, swapAt_right]
      exact below
    · by_cases is_cur : i = cur
      · subst is_cur
        rw [swapAt_left, swapAt_of_ne a (k := i / 2) (by omega) (by omega)]
        exact ready.grand c le child low
      · rw [swapAt_of_ne a is_cur is_c]
        by_cases sibling : i / 2 = cur
        · rw [sibling, swapAt_left]
          exact lowest i high sibling
        · rw [swapAt_of_ne a sibling ne]
          exact ready.others i low high sibling
  · rw [child, swapAt_left, swapAt_of_ne a (k := i) (by omega) (by omega)]
    have edge := ready.others i (by omega) high (by omega)
    rwa [under] at edge

theorem siftDown_ordered (law : Comparator cmp) {fuel : Nat} (ready : DownReady cmp n a cur)
    (cur_pos : 1 ≤ cur) (enough : n < cur + fuel) : Ordered cmp n (siftDown cmp n fuel cur a) := by
  induction fuel generalizing cur a with
  | zero => exact fun i low high => ready.others i low high (by omega)
  | succ fuel induction =>
    rw [siftDown]
    split
    · rename_i child_le
      obtain ⟨le, child, ge, lowest⟩ := lowerChild_spec (a := a) law child_le
      split
      · rename_i above
        exact induction (ready.step law cur_pos child_le above) (by omega) (by omega)
      · rename_i not_above
        intro i low high
        by_cases under : i / 2 = cur
        · rw [under]
          exact law.trans _ _ _ (by omega) (lowest i high under)
        · exact ready.others i low high under
    · rename_i no_child
      exact fun i low high => ready.others i low high (by omega)

theorem siftDown_contents (law : Comparator cmp) {fuel : Nat} (cur_pos : 1 ≤ cur)
    (cur_le : cur ≤ n) : contents n (siftDown cmp n fuel cur a) = contents n a := by
  induction fuel generalizing cur a with
  | zero => rfl
  | succ fuel induction =>
    rw [siftDown]
    split
    · rename_i child_le
      obtain ⟨le, child, ge, lowest⟩ := lowerChild_spec (a := a) law child_le
      split
      · rw [induction (by omega) le]
        exact contents_swapAt cur_pos cur_le (by omega) le
      · rfl
    · rfl

theorem Ordered.downReady {b : Nat → α} (ordered : Ordered cmp n a)
    (same : ∀ i, 2 ≤ i → b i = a i) : DownReady cmp n b 1 := by
  refine ⟨fun i low high ne => ?_, fun i high child two_le => ?_⟩
  · rw [same i low, same (i / 2) (by omega)]
    exact ordered i low high
  · omega

theorem Ordered.downReady_last (ordered : Ordered cmp (n + 1) a) :
    DownReady cmp n (swapAt a 1 (n + 1)) 1 := by
  refine ⟨fun i low high ne => ?_, fun i high child two_le => ?_⟩
  · rw [swapAt_of_ne a (k := i) (by omega) (by omega),
      swapAt_of_ne a (k := i / 2) (by omega) (by omega)]
    exact ordered i low (by omega)
  · omega

def insert (cmp : α → α → Int) (n : Nat) (a : Nat → α) (x : α) : Nat → α :=
  siftUp cmp (n + 1) (n + 1) (Function.update a (n + 1) x)

/-- Put the last of `n + 1` positions in place of the root and sift down. -/
def delete (cmp : α → α → Int) (n : Nat) (a : Nat → α) : Nat → α :=
  siftDown cmp n (n + 1) 1 (swapAt a 1 (n + 1))

theorem Ordered.insert (law : Comparator cmp) (ordered : Ordered cmp n a) (x : α) :
    Ordered cmp (n + 1) (insert cmp n a x) := by
  apply siftUp_ordered law _ le_rfl le_rfl
  apply ordered.upReady
  intro i le
  have other : i ≠ n + 1 := by omega
  exact update_of_ne other x a

theorem contents_insert (x : α) : contents (n + 1) (insert cmp n a x) = x ::ₘ contents n a := by
  have below : contents n (Function.update a (n + 1) x) = contents n a :=
    contents_congr fun i _ le => update_of_ne (Nat.lt_succ_of_le le).ne x a
  rw [insert, siftUp_contents le_rfl, contents_succ, below, update_self]

theorem Ordered.delete (law : Comparator cmp) (ordered : Ordered cmp (n + 1) a) :
    Ordered cmp n (delete cmp n a) :=
  siftDown_ordered law ordered.downReady_last le_rfl (by omega)

theorem contents_delete (law : Comparator cmp) :
    contents (n + 1) a = a 1 ::ₘ contents n (delete cmp n a) := by
  rw [contents_swap_last]
  cases n with
  | zero => rfl
  | succ n => rw [delete, siftDown_contents law le_rfl (by omega)]

section

variable {β : Type} (f : β → α) (b : Nat → β)

theorem siftUp_comp (fuel cur : Nat) :
    siftUp cmp fuel cur (f ∘ b) = f ∘ siftUp (fun x y => cmp (f x) (f y)) fuel cur b := by
  induction fuel generalizing cur b with
  | zero => rfl
  | succ fuel induction =>
    rw [siftUp, siftUp]
    by_cases goes : cur / 2 ≠ 0 ∧ cmp (f (b (cur / 2))) (f (b cur)) > 0
    · rw [if_pos goes, if_pos (show _ ∧ cmp ((f ∘ b) _) ((f ∘ b) _) > 0 from goes)]
      exact induction (swapAt b cur (cur / 2)) (cur / 2)
    · rw [if_neg goes, if_neg (show ¬(_ ∧ cmp ((f ∘ b) _) ((f ∘ b) _) > 0) from goes)]

theorem siftDown_comp (fuel cur : Nat) :
    siftDown cmp n fuel cur (f ∘ b) = f ∘ siftDown (fun x y => cmp (f x) (f y)) n fuel cur b := by
  induction fuel generalizing cur b with
  | zero => rfl
  | succ fuel induction =>
    have lower : lowerChild cmp n (f ∘ b) cur = lowerChild (fun x y => cmp (f x) (f y)) n b cur :=
      rfl
    rw [siftDown, siftDown, lower]
    generalize lowerChild (fun x y => cmp (f x) (f y)) n b cur = child
    by_cases has_child : 2 * cur ≤ n
    · rw [if_pos has_child, if_pos has_child]
      by_cases goes : cmp (f (b cur)) (f (b child)) > 0
      · rw [if_pos goes, if_pos (show cmp ((f ∘ b) _) ((f ∘ b) _) > 0 from goes)]
        exact induction (swapAt b cur child) child
      · rw [if_neg goes, if_neg (show ¬cmp ((f ∘ b) _) ((f ∘ b) _) > 0 from goes)]
    · rw [if_neg has_child, if_neg has_child]

end

theorem Ordered.root_le (law : Comparator cmp) (ordered : Ordered cmp n a) {i : Nat}
    (pos : 1 ≤ i) (le : i ≤ n) : cmp (a 1) (a i) ≤ 0 := by
  induction i using Nat.strong_induction_on with
  | _ i induction =>
    by_cases first : i = 1
    · subst first
      exact law.refl _
    · exact law.trans _ _ _ (induction (i / 2) (by omega) (by omega) (by omega))
        (ordered i (by omega) le)

end Zebra.BinHeap
