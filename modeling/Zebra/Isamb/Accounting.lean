import Zebra.Isamb.History

/-!
# Where the blocks are

A block that has been handed out is on the free list of its category or below the root of exactly
one list, on one path, whatever has been merged into the lists and whichever of them have been
unlinked.
-/

namespace Zebra.Isamb

open Function Finset Option

section

variable {Item Code : Type}

/-- The blocks along the pointers from `pos` on, as often as a path leads to them. -/
def liveBlocks (m : IsamcM Item Code) (view : Nat → Option DiskBlock) :
    Nat → Nat → Option (List Nat)
  | 0, _ => none
  | fuel + 1, pos => do
      let .used leaf _ bytes ← view pos | none
      if leaf then some [pos]
      else do
        let (first, src) ← decodePtr bytes
        let others ← decodeEntries m bytes.length src
        let below ← (first :: others.map Prod.snd).mapM (liveBlocks m view fuel)
        some (pos :: below.flatten)

def Tree.blockList : {h : Nat} → Tree Item h → List Nat
  | 0, t => [t.pos]
  | _ + 1, t => t.pos :: ((Node.kids t).toList.map blockList).flatten

theorem Tree.coe_blockList {h : Nat} (t : Tree Item h) :
    (t.blockList : Multiset Nat) = t.blocks := by
  induction h with
  | zero => rfl
  | succ h ih =>
    have kids : ((Node.kids t).toList.map fun kid => (kid.blockList : Multiset Nat)) =
        (Node.kids t).toList.map Tree.blocks := List.map_congr_left fun kid _ => ih kid
    change ((t.pos :: ((Node.kids t).toList.map blockList).flatten : List Nat) : Multiset Nat) =
      {t.pos} + ((Node.kids t).toList.map Tree.blocks).sum
    rw [← Multiset.cons_coe, ← Multiset.singleton_add, ← kids]
    congr 1
    induction (Node.kids t).toList with
    | nil => rfl
    | cons kid kids ih =>
      rw [List.map_cons, List.flatten_cons, List.map_cons, List.sum_cons, ← ih]
      rfl

theorem mapM_eq_some {α β γ : Type} {f : β → Option γ} {g : α → γ} {p : α → β} {xs : List α}
    (each : ∀ x ∈ xs, f (p x) = some (g x)) : (xs.map p).mapM f = some (xs.map g) := by
  induction xs with
  | nil => rfl
  | cons x xs ih =>
    rw [List.map_cons, List.mapM_cons, each x List.mem_cons_self,
      ih fun y mem => each y (List.mem_cons_of_mem x mem)]
    rfl

variable [LinearOrder Item] {m : IsamcM Item Code} {law : LawfulIsamc m} {layout : Layout}
  {view : Nat → Option DiskBlock}

/-- Following the pointers of a tree on disk finds its blocks. -/
theorem liveBlocks_stored {h : Nat} {t : Tree Item h} {low high : Option Item}
    (stored : t.Stored law view) (formed : t.Formed law layout low high) {fuel : Nat}
    (enough : h < fuel) : liveBlocks m view fuel t.pos = some t.blockList := by
  induction h generalizing low high fuel with
  | zero =>
    obtain ⟨fuel, rfl⟩ := Nat.exists_eq_add_one.mpr enough
    have on_disk : view t.pos = some (.used true (encodePtr t.count) (t.bytes law)) := stored
    simp only [liveBlocks, on_disk, bind_eq_bind, bind_some, if_true]
    rfl
  | succ h ih =>
    obtain ⟨fuel, rfl⟩ := Nat.exists_eq_add_one.mpr (Nat.zero_lt_of_lt enough)
    have node : Tree.NodeFormed law layout Tree.pos (Tree.Formed law layout) low high t := formed
    have on_disk : view t.pos =
        some (.used false (encodePtr t.count) ((Node.kids t).bytes law Tree.pos)) := stored.1
    have below : ((Node.kids t).toList.map Tree.pos).mapM (liveBlocks m view fuel) =
        some ((Node.kids t).toList.map Tree.blockList) := by
      refine mapM_eq_some fun kid mem => ?_
      obtain ⟨low', high', -, kid_formed⟩ := node.kids.of_mem mem
      exact ih (stored.2 kid mem) kid_formed (Nat.lt_of_succ_lt_succ enough)
    obtain ⟨entries, decoded, kids⟩ := decodeEntries_tailBytes Tree.pos node.kids
      ((Node.kids t).length_le_bytes law Tree.pos)
    simp only [liveBlocks, on_disk, bind_eq_bind, bind_some, Bool.false_eq_true,
      if_false, decodePtr_bytes, decoded, kids, below]
    rfl

end

section

variable {ι Item Code : Type} [DecidableEq ι]

/-- `isamb_unlink` on one of the lists, whose root is then forgotten. -/
def Store.unlink (m : IsamcM Item Code) (s : Store ι) (i : ι) : Except Fault (Store ι) := do
  let isamb ← Isamb.unlink m s.isamb.maxLevels s.isamb (s.roots i)
  .ok { isamb, roots := Function.update s.roots i 0 }

variable [LinearOrder Item] {m : IsamcM Item Code} {law : LawfulIsamc m} {layout : Layout}

/-- Stores that valid merges and unlinkings lead to. -/
inductive Operated (law : LawfulIsamc m) (layout : Layout) : Store ι → Prop
  | empty : Operated law layout (.empty layout)
  | merge {s s' : Store ι} {i : ι} {ops : List (Item × Nat)} (before : Operated law layout s)
      (valid : ValidMerge law s i ops) (done : s.merge m i ops = .ok s') : Operated law layout s'
  | unlink {s s' : Store ι} {i : ι} (before : Operated law layout s)
      (done : s.unlink m i = .ok s') : Operated law layout s'

variable [Fintype ι] {s : Store ι} {lists : ι → IsamList Item}

theorem Store.Holds.unlink (holds : s.Holds law layout lists) (i : ι) :
    ∃ s', s.unlink m i = .ok s' ∧ s'.Holds law layout (Function.update lists i .empty) := by
  have sound := holds.sound
  have settled := holds.settled i
  have root := holds.roots i
  rw [← sum_erase_add _ _ (mem_univ i)] at sound
  obtain ⟨b', run, sound', same⟩ : ∃ b', Isamb.unlink m s.isamb.maxLevels s.isamb (s.roots i) =
      .ok b' ∧ Sound layout b' (∑ j ∈ univ.erase i, (lists j).blocks) ∧
        ∀ pos ∈ ∑ j ∈ univ.erase i, (lists j).blocks, b'.view pos = s.isamb.view pos := by
    cases list : lists i with
    | empty =>
      rw [list] at root sound
      obtain ⟨fuel, levels⟩ : ∃ fuel, s.isamb.maxLevels = fuel + 1 := ⟨_, rfl⟩
      refine ⟨s.isamb, ?_, (add_zero (∑ j ∈ univ.erase i, (lists j).blocks)) ▸ sound,
        fun _ _ => rfl⟩
      rw [root, levels]
      exact if_pos rfl
    | @tree h t =>
      rw [list] at root sound settled
      have deep : h < s.isamb.maxLevels := t.lt_maxLevels sound
      rw [root]
      exact unlink_spec deep _ _ t sound ⟨settled.stored, none, none, settled.formed⟩
  have others : ∑ j ∈ univ.erase i, (Function.update lists i IsamList.empty j).blocks =
      ∑ j ∈ univ.erase i, (lists j).blocks :=
    sum_congr rfl fun j mem => by rw [update_of_ne (ne_of_mem_erase mem)]
  refine ⟨{ isamb := b', roots := Function.update s.roots i 0 }, ?_, ?_, fun j => ?_, fun j => ?_,
    fun j => ?_⟩
  · simp only [Store.unlink, run, bind, Except.bind]
  · rw [← sum_erase_add _ _ (mem_univ i), others, update_self]
    exact (add_zero (∑ j ∈ univ.erase i, (lists j).blocks)).symm ▸ sound'
  · by_cases at_i : j = i
    · subst at_i
      rw [update_self]
      exact update_self ..
    · rw [update_of_ne at_i]
      exact (update_of_ne at_i ..).trans (holds.roots j)
  · by_cases at_i : j = i
    · subst at_i
      rw [update_self]
      trivial
    · rw [update_of_ne at_i]
      refine (holds.settled j).congr fun pos mem => same pos ?_
      exact Multiset.mem_of_le (single_le_sum (fun _ _ => Multiset.zero_le _)
        (mem_erase.mpr ⟨at_i, mem_univ j⟩)) mem
  · by_cases at_i : j = i
    · subst at_i
      rw [update_self]
      exact fun _ => rfl
    · rw [update_of_ne at_i]
      exact holds.occupied j

theorem Operated.holds [Suits law layout] (operated : Operated law layout s) :
    ∃ lists, s.Holds law layout lists := by
  induction operated with
  | empty => exact ⟨fun _ => .empty, Store.holds_empty layout⟩
  | merge _ valid done ih =>
    obtain ⟨lists, holds⟩ := ih
    rcases holds.merge valid with full | ⟨s'', list', run, holds', -⟩
    · rw [full] at done
      cases done
    · have same := run.symm.trans done
      injection same with same
      exact ⟨_, same ▸ holds'⟩
  | @unlink s s' i _ done ih =>
    obtain ⟨lists, holds⟩ := ih
    obtain ⟨s'', run, holds'⟩ := holds.unlink i
    have same := run.symm.trans done
    injection same with same
    exact ⟨_, same ▸ holds'⟩

/-- Following the pointers from the root of a list finds the blocks that its tree has. -/
theorem Store.Holds.live (holds : s.Holds law layout lists) (i : ι) :
    ∃ live, (if s.roots i = 0 then some [] else
        liveBlocks m s.isamb.view s.isamb.maxLevels (s.roots i)) = some live ∧
      (live : Multiset Nat) = (lists i).blocks := by
  have sound := holds.sound
  have settled := holds.settled i
  have root := holds.roots i
  rw [← sum_erase_add _ _ (mem_univ i)] at sound
  cases list : lists i with
  | empty =>
    rw [list] at root
    exact ⟨[], if_pos root, rfl⟩
  | @tree h t =>
    rw [list] at root sound settled
    have deep : h < s.isamb.maxLevels := t.lt_maxLevels sound
    have root_ne : t.pos ≠ 0 := sound.ne_zero (Multiset.mem_add.mpr (Or.inr t.pos_mem_blocks))
    refine ⟨t.blockList, ?_, t.coe_blockList⟩
    rw [root]
    change (if t.pos = 0 then _ else _) = _
    rw [if_neg root_ne]
    exact liveBlocks_stored settled.stored settled.formed deep

/-- In each category the free list has no duplicates and only blocks of the category, none of them
is below a root, no block is below a root along two paths or below two roots, and every block handed
out is free or below a root. -/
theorem operated_accounting [Suits law layout] (operated : Operated law layout s) :
    ∃ live : ι → List Nat,
      (∀ i, (if s.roots i = 0 then some [] else
        liveBlocks m s.isamb.view s.isamb.maxLevels (s.roots i)) = some (live i)) ∧
      (∀ i, (live i).Nodup) ∧ (∀ i j, i ≠ j → (live i).Disjoint (live j)) ∧
      ∀ cat < layout.noCat, ∃ free,
        FreeChain s.isamb.view (s.isamb.file cat).head.freeList free ∧ free.Nodup ∧
        (∀ pos ∈ free, pos % catMax = cat ∧ ∀ i, pos ∉ live i) ∧
        ∀ pos, pos % catMax = cat →
          (((s.isamb.file cat).head.firstBlock ≤ pos / catMax ∧
            pos / catMax < (s.isamb.file cat).head.lastBlock) ↔ pos ∈ free ∨
              ∃ i, pos ∈ live i) := by
  obtain ⟨lists, holds⟩ := operated.holds
  have sound := holds.sound
  choose live live_eq coe_live using holds.live
  have own_eq : ∑ i, (lists i).blocks = ∑ i, (live i : Multiset Nat) :=
    sum_congr rfl fun i _ => (coe_live i).symm
  rw [own_eq] at sound
  have mem_own {pos : Nat} : pos ∈ ∑ i, (live i : Multiset Nat) ↔ ∃ i, pos ∈ live i := by
    rw [Multiset.mem_sum]
    simp only [mem_univ, true_and, Multiset.mem_coe]
  refine ⟨live, live_eq, fun i => ?_, fun i j differ pos mem_i mem_j => ?_, fun cat cat_lt => ?_⟩
  · have le : (live i : Multiset Nat) ≤ ∑ i, (live i : Multiset Nat) :=
      single_le_sum (fun _ _ => Multiset.zero_le _) (mem_univ i)
    exact Multiset.coe_nodup.mp (Multiset.nodup_of_le le sound.nodup)
  · have nodup := sound.nodup
    rw [← sum_erase_add _ _ (mem_univ i)] at nodup
    have le : (live j : Multiset Nat) ≤ ∑ k ∈ univ.erase i, (live k : Multiset Nat) :=
      single_le_sum (fun _ _ => Multiset.zero_le _)
        (mem_erase.mpr ⟨differ.symm, mem_univ j⟩)
    exact Multiset.disjoint_left.mp (Multiset.nodup_add.mp nodup).2.2
      (Multiset.mem_of_le le mem_j) mem_i
  · obtain ⟨free, chain, account⟩ := sound.account cat cat_lt
    have cat_small : cat < catMax := cat_lt.trans_le layout.noCat_le
    have nodup := handedOut_nodup (s.isamb.file cat).head cat
    rw [← account, Multiset.nodup_add] at nodup
    refine ⟨free, chain, Multiset.coe_nodup.mp nodup.2.1, fun pos mem => ⟨?_, fun i live_mem => ?_⟩,
      fun pos in_cat => ?_⟩
    · have used : pos ∈ handedOut (s.isamb.file cat).head cat := by
        rw [← account]
        exact Multiset.mem_add.mpr (Or.inr mem)
      exact ((mem_handedOut cat_small).mp used).1
    · exact not_mem_free cat_lt account (mem_own.mpr ⟨i, live_mem⟩) mem
    · have used : pos ∈ handedOut (s.isamb.file cat).head cat ↔ _ := mem_handedOut cat_small
      rw [← account, Multiset.mem_add, Multiset.mem_filter, mem_own] at used
      constructor
      · intro range
        rcases used.mpr ⟨in_cat, range⟩ with live_mem | free_mem
        · exact Or.inr live_mem.1
        · exact Or.inl free_mem
      · rintro (free_mem | live_mem)
        · exact (used.mp (Or.inr free_mem)).2
        · exact (used.mp (Or.inl ⟨live_mem, in_cat⟩)).2

theorem operated_accounting_split : ∃ s : Store (Fin 2),
    Operated (keyLawful 5) (Layout.isambOpen false) s ∧ s.roots 0 ≠ 0 ∧ s.roots 1 = 0 ∧
      ∃ live : Fin 2 → List Nat,
        (∀ i, (if s.roots i = 0 then some [] else
          liveBlocks keyMethod s.isamb.view s.isamb.maxLevels (s.roots i)) = some (live i)) ∧
        (∀ i, (live i).Nodup) ∧ (∀ i j, i ≠ j → (live i).Disjoint (live j)) ∧
        ∀ cat < (Layout.isambOpen false).noCat, ∃ free,
          FreeChain s.isamb.view (s.isamb.file cat).head.freeList free ∧ free.Nodup ∧
          (∀ pos ∈ free, pos % catMax = cat ∧ ∀ i, pos ∉ live i) ∧
          ∀ pos, pos % catMax = cat →
            (((s.isamb.file cat).head.firstBlock ≤ pos / catMax ∧
              pos / catMax < (s.isamb.file cat).head.lastBlock) ↔
                pos ∈ free ∨ ∃ i, pos ∈ live i) := by
  obtain ⟨_, _, s, ⟨filled, valid₁⟩, ⟨deleted, valid₂⟩, ⟨other, valid₃⟩, kept, -⟩ := split_run
  have operated := ((Operated.empty.merge valid₁ filled).merge valid₂ deleted).merge valid₃ other
  obtain ⟨lists, holds⟩ := operated.holds
  obtain ⟨s', unlinked, -⟩ := holds.unlink 1
  have roots : s'.roots = Function.update s.roots 1 0 := by
    simp only [Store.unlink, bind, Except.bind] at unlinked
    split at unlinked
    · cases unlinked
    · cases unlinked
      rfl
  refine ⟨s', operated.unlink unlinked, ?_, ?_, operated_accounting (operated.unlink unlinked)⟩
  · rw [roots]
    exact kept
  · rw [roots]
    rfl

end

end Zebra.Isamb
