import Zebra.Isamb.CursorSpec

/-!
# Histories of merges

A store is an ISAMB with the roots of its lists.  Whatever is merged into its lists, their blocks
stay apart, every list stays in order, and a merge changes one list as a set, unless the split of
its root makes `isamb_merge` drop the list.
-/

namespace Zebra.Isamb

open Function Finset

section

variable {layout : Layout}

theorem open2_sound (layout : Layout) : Sound layout (open2 layout.cache layout.sizes) 0 := by
  have handed (cat : Nat) :
      handedOut ((open2 layout.cache layout.sizes).file cat).head cat = 0 := by
    simp [handedOut, open2, newHead]
  refine
    { noCat := rfl, cache := rfl, intCount := rfl, blockSize := fun _ _ => rfl
      blockMax := fun _ _ => rfl, firstBlock := fun _ _ => Nat.succ_pos _
      lastBlock := fun _ _ => le_rfl, caches := fun _ cat _ =>
        ⟨List.nodup_nil, List.forall_mem_nil _⟩,
          own_cat := fun pos mem => absurd mem (Multiset.notMem_zero pos)
      small := fun cat _ pos mem => ?_, account := fun cat _ => ⟨[], rfl, ?_⟩ }
  · rw [handed] at mem
    cases mem
  · rw [handed]
    rfl

end

/-- An ISAMB and the roots of its lists. -/
structure Store (ι : Type) where
  isamb : Isamb
  roots : ι → Nat

variable {ι Item Code : Type}

def Store.empty (layout : Layout) : Store ι where
  isamb := open2 layout.cache layout.sizes
  roots _ := 0

/-- `isamb_merge` on one of the lists. -/
def Store.merge [DecidableEq ι] (m : IsamcM Item Code) (s : Store ι) (i : ι)
    (ops : List (Item × Nat)) : Except Fault (Store ι) := do
  let (pos, isamb) ← Isamb.merge m s.isamb (s.roots i) ops
  .ok { isamb, roots := Function.update s.roots i pos }

section

variable [LinearOrder Item] {m : IsamcM Item Code}

/-- A call of `isamb_merge` as its contract has it: items in order, and only items deleted that
reading the list yields. -/
structure ValidMerge (law : LawfulIsamc m) (s : Store ι) (i : ι) (ops : List (Item × Nat)) :
    Prop where
  stream : ValidOps law.Valid ops
  present : ∃ items, Reads m 1 s.isamb (s.roots i) items ∧ ∀ x, (x, 0) ∈ ops → x ∈ items

/-- Stores that valid merges with `P` lead to. -/
inductive Reachable [DecidableEq ι] (law : LawfulIsamc m) (layout : Layout)
    (P : Store ι → ι → List (Item × Nat) → Prop) : Store ι → Prop
  | empty : Reachable law layout P (.empty layout)
  | merge {s s' : Store ι} {i : ι} {ops : List (Item × Nat)} (before : Reachable law layout P s)
      (valid : ValidMerge law s i ops) (holds : P s i ops) (done : s.merge m i ops = .ok s') :
      Reachable law layout P s'

/-- A store with its lists in place, each on blocks of its own. -/
structure Store.Holds [Fintype ι] (law : LawfulIsamc m) (layout : Layout) (s : Store ι)
    (lists : ι → IsamList Item) : Prop where
  sound : Sound layout s.isamb (∑ i, (lists i).blocks)
  roots : ∀ i, s.roots i = (lists i).pos
  settled : ∀ i, (lists i).Settled law layout s.isamb.view
  occupied : ∀ i, (lists i).items = [] → lists i = .empty

variable [Fintype ι] {law : LawfulIsamc m} {layout : Layout} {s : Store ι}
  {lists : ι → IsamList Item}

theorem Store.Holds.reads_iff [DecidableEq ι] (holds : s.Holds law layout lists) (i : ι)
    (scope : Int) (items : List Item) :
    Reads m scope s.isamb (s.roots i) items ↔ items = (lists i).items := by
  have sound := holds.sound
  rw [← sum_erase_add _ _ (mem_univ i)] at sound
  rw [holds.roots i]
  exact Isamb.reads_iff sound (holds.settled i) scope items

theorem IsamList.Settled.congr {list : IsamList Item} {view view' : Nat → Option DiskBlock}
    (settled : list.Settled law layout view) (same : ∀ pos ∈ list.blocks, view' pos = view pos) :
    list.Settled law layout view' := by
  cases list with
  | empty => trivial
  | tree t => exact ⟨settled.stored.congr same, settled.formed, settled.counted⟩

variable [DecidableEq ι]

/-- A valid merge changes one list and leaves the others alone. -/
theorem Store.Holds.merge [Suits law layout] (holds : s.Holds law layout lists) {i : ι}
    {ops : List (Item × Nat)}
    (valid : ValidMerge law s i ops) :
    s.merge m i ops = .error .exit ∨
      ∃ s' list', s.merge m i ops = .ok s' ∧
        s'.Holds law layout (Function.update lists i list') ∧
        (Applied ops (lists i).items list'.items ↔
          emptyHalfMerge m s.isamb (s.roots i) ops = false) ∧
        (emptyHalfMerge m s.isamb (s.roots i) ops = true → list' = .empty) ∧
        ((lists i).Exact → staleMerge m s.isamb (s.roots i) ops = false → list'.Exact) := by
  have present : ∀ x, (x, 0) ∈ ops → x ∈ (lists i).items := by
    obtain ⟨items, read, mem⟩ := valid.present
    rw [(holds.reads_iff i 1 items).mp read] at mem
    exact mem
  have sound := holds.sound
  rw [← sum_erase_add _ _ (mem_univ i)] at sound
  rw [holds.roots i]
  rcases merge_spec (m := m) sound (holds.settled i) (holds.occupied i) valid.stream present with
    full | ⟨list', b', run, sound', frame', settled', occupied', applied, dropped, exact⟩
  · left
    simp only [Store.merge, holds.roots i, full, bind, Except.bind]
  refine .inr ⟨{ isamb := b', roots := Function.update s.roots i list'.pos }, list', ?_, ?_,
    applied, dropped, exact⟩
  · simp only [Store.merge, holds.roots i, run, bind, Except.bind]
  · have others : ∑ j ∈ univ.erase i, (Function.update lists i list' j).blocks =
        ∑ j ∈ univ.erase i, (lists j).blocks :=
      sum_congr rfl fun j mem => by
        rw [update_of_ne (ne_of_mem_erase mem)]
    refine ⟨?_, fun j => ?_, fun j => ?_, fun j => ?_⟩
    · rw [← sum_erase_add _ _ (mem_univ i), others, update_self]
      exact sound'
    · change Function.update s.roots i list'.pos j = _
      by_cases same : j = i
      · subst same
        rw [update_self, update_self]
      · rw [update_of_ne same, update_of_ne same]
        exact holds.roots j
    · by_cases same : j = i
      · subst same
        rw [update_self]
        exact settled'
      · rw [update_of_ne same]
        refine (holds.settled j).congr fun pos mem => frame' pos ?_
        exact Multiset.mem_of_le (single_le_sum (fun _ _ => Multiset.zero_le _)
          (mem_erase.mpr ⟨same, mem_univ j⟩)) mem
    · by_cases same : j = i
      · subst same
        rw [update_self]
        exact occupied'
      · rw [update_of_ne same]
        exact holds.occupied j

omit [DecidableEq ι] in
theorem Store.holds_empty (layout : Layout) :
    (Store.empty layout : Store ι).Holds law layout fun _ => .empty := by
  refine ⟨?_, fun _ => rfl, fun _ => trivial, fun _ _ => rfl⟩
  have none_used : ∑ _i : ι, (IsamList.empty : IsamList Item).blocks = 0 :=
    sum_eq_zero fun _ _ => rfl
  rw [none_used]
  exact open2_sound layout

omit [DecidableEq ι] in
theorem Store.Holds.sorted (holds : s.Holds law layout lists) (i : ι) :
    (lists i).items.Pairwise (· < ·) := by
  have settled := holds.settled i
  cases list : lists i with
  | empty => exact List.Pairwise.nil
  | tree t =>
    rw [list] at settled
    exact settled.formed.inOrder.sorted

variable {P : Store ι → ι → List (Item × Nat) → Prop}

theorem Reachable.holds [Suits law layout]
    (reachable : Reachable law layout P s) : ∃ lists, s.Holds law layout lists := by
  induction reachable with
  | empty => exact ⟨fun _ => .empty, Store.holds_empty layout⟩
  | merge _ valid _ done ih =>
    obtain ⟨lists, holds⟩ := ih
    rcases holds.merge valid with full | ⟨s'', list', run, holds', -⟩
    · rw [full] at done
      cases done
    · have same := run.symm.trans done
      injection same with same
      exact ⟨_, same ▸ holds'⟩

def Store.Contains (m : IsamcM Item Code) (s : Store ι) (i : ι) (x : Item) : Prop :=
  ∃ items, Reads m 1 s.isamb (s.roots i) items ∧ x ∈ items

variable {ops : List (Item × Nat)}

/-- A merge that leaves a root behind applies its operations. -/
theorem Reachable.contains_iff [Suits law layout] {s s' : Store ι} {i : ι}
    (reachable : Reachable law layout P s) (valid : ValidMerge law s i ops)
    (done : s.merge m i ops = .ok s') (kept : s'.roots i ≠ 0) (x : Item) :
    s'.Contains m i x ↔ (s.Contains m i x ∧ (x, 0) ∉ ops) ∨ (x, 1) ∈ ops := by
  obtain ⟨lists, holds⟩ := reachable.holds
  rcases holds.merge valid with full | ⟨s'', list', run, holds', applied, dropped, -⟩
  · rw [full] at done
    cases done
  have same := run.symm.trans done
  injection same with same
  subst same
  have half : emptyHalfMerge m s.isamb (s.roots i) ops = false := by
    by_contra drop
    have root := holds'.roots i
    rw [update_self, dropped (Bool.eq_true_of_not_eq_false drop)] at root
    exact kept root
  have contains_iff {s : Store ι} {lists : ι → IsamList Item} (holds : s.Holds law layout lists) :
      s.Contains m i x ↔ x ∈ (lists i).items := by
    constructor
    · rintro ⟨items, read, mem⟩
      exact (holds.reads_iff i 1 items).mp read ▸ mem
    · exact fun mem => ⟨_, (holds.reads_iff i 1 _).mpr rfl, mem⟩
  rw [contains_iff holds, contains_iff holds', update_self]
  exact applied.mpr half x

theorem ValidMerge.of_inserts [Suits law layout] {i : ι} (reachable : Reachable law layout P s)
    (stream : ValidOps law.Valid ops)
    (inserts : ∀ op ∈ ops, op.2 = 1) : ValidMerge law s i ops := by
  obtain ⟨lists, holds⟩ := reachable.holds
  refine ⟨stream, (lists i).items, (holds.reads_iff i 1 _).mpr rfl, fun x mem => ?_⟩
  cases inserts _ mem

theorem ValidMerge.of_contains [Suits law layout] {i : ι} (reachable : Reachable law layout P s)
    (stream : ValidOps law.Valid ops)
    (contains : ∀ x, (x, 0) ∈ ops → s.Contains m i x) : ValidMerge law s i ops := by
  obtain ⟨lists, holds⟩ := reachable.holds
  refine ⟨stream, (lists i).items, (holds.reads_iff i 1 _).mpr rfl, fun x mem => ?_⟩
  obtain ⟨items, read, x_mem⟩ := contains x mem
  exact (holds.reads_iff i 1 items).mp read ▸ x_mem

end

section

theorem ok_of_any {ε α : Type} {x : Except ε α} {p : α → Bool} (any : x.toOption.any p = true) :
    ∃ a, x = .ok a ∧ p a = true := by
  cases x with
  | error => cases any
  | ok a => exact ⟨a, rfl, any⟩

/-- A new store as `isamb_open` makes it, with one list. -/
abbrev newStore : Store (Fin 1) := .empty (Layout.isambOpen false)

/-- Inserting the key 5 and reading it with `[7]`, then without a bound. -/
theorem single_run : ∃ s, newStore.merge keyMethod 0 [([5], 1)] = .ok s ∧ s.roots 0 ≠ 0 ∧
    Reads keyMethod 1 s.isamb (s.roots 0) [[5]] ∧
    ∃ pp, ppOpenX keyMethod s.isamb (s.roots 0) 1 = .ok pp ∧
      (ppCalls keyMethod pp [some [7], none]).map Prod.fst = .ok [none, none] := by
  have evaluated : ((newStore.merge keyMethod 0 [([5], 1)]).toOption.any fun s =>
      s.roots 0 != 0 && (ppOpenX keyMethod s.isamb (s.roots 0) 1).toOption.any fun pp =>
        (ppReadAll keyMethod 2 pp == .ok [[5]]) &&
          ((ppCalls keyMethod pp [some [7], none]).map Prod.fst == .ok [none, none])) = true := by
    decide
  obtain ⟨s, run, rest⟩ := ok_of_any evaluated
  obtain ⟨kept, rest⟩ := Bool.and_eq_true_iff.mp rest
  obtain ⟨pp, opened, rest⟩ := ok_of_any rest
  obtain ⟨read, calls⟩ := Bool.and_eq_true_iff.mp rest
  have root_ne := bne_iff_ne.mp kept
  exact ⟨s, run, root_ne, .inr ⟨pp, 2, root_ne, opened, beq_iff_eq.mp read⟩, pp, opened,
    beq_iff_eq.mp calls⟩

theorem single_valid : ValidMerge (keyLawful 1) newStore 0 [([5], 1)] := by
  refine ValidMerge.of_inserts (P := fun _ _ _ => True) .empty ⟨?_, ?_, ?_⟩ ?_
  · exact List.pairwise_singleton _ _
  · rintro op (_ | ⟨_, ⟨⟩⟩)
    exact ⟨⟨by decide, by decide, by decide⟩, rfl⟩
  · rintro op (_ | ⟨_, ⟨⟩⟩)
    exact .inr rfl
  · rintro op (_ | ⟨_, ⟨⟩⟩)
    rfl

/-- A new store with two lists. -/
abbrev twoLists : Store (Fin 2) := .empty (Layout.isambOpen false)

/-- A key of which few go into one block. -/
def wideKey (k : Nat) : ItKey := [k, 2 ^ 62, 2 ^ 62, 2 ^ 62, 2 ^ 62]

def wideOps (n mode : Nat) : List (ItKey × Nat) := (List.range n).map fun k => (wideKey k, mode)

theorem wideOps_valid {n mode : Nat} (small : n ≤ 2 ^ 63) (isMode : mode = 0 ∨ mode = 1) :
    ValidOps (keyLawful 5).Valid (wideOps n mode) where
  sorted := List.pairwise_map.mpr (List.pairwise_lt_range.imp fun lt => List.Lex.rel lt)
  valid := by
    intro op mem
    obtain ⟨k, below, rfl⟩ := List.mem_map.mp mem
    refine ⟨⟨Nat.succ_pos _, le_rfl, ?_⟩, rfl⟩
    refine List.forall_mem_cons.mpr ⟨(List.mem_range.mp below).trans_le small, ?_⟩
    decide
  mode := by
    intro op mem
    obtain ⟨k, -, rfl⟩ := List.mem_map.mp mem
    exact isMode

theorem wideOps_inserts {n : Nat} : ∀ op ∈ wideOps n 1, op.2 = 1 := by
  intro op mem
  obtain ⟨k, -, rfl⟩ := List.mem_map.mp mem
  rfl

/-- Sixty keys split the root of the first list, nine of them are deleted, and the second list gets
one key. -/
theorem split_run : ∃ s₁ s₂ s₃ : Store (Fin 2),
    (twoLists.merge keyMethod 0 (wideOps 60 1) = .ok s₁ ∧
      ValidMerge (keyLawful 5) twoLists 0 (wideOps 60 1)) ∧
    (s₁.merge keyMethod 0 (wideOps 9 0) = .ok s₂ ∧
      ValidMerge (keyLawful 5) s₁ 0 (wideOps 9 0)) ∧
    (s₂.merge keyMethod 1 (wideOps 1 1) = .ok s₃ ∧
      ValidMerge (keyLawful 5) s₂ 1 (wideOps 1 1)) ∧
    s₃.roots 0 ≠ 0 ∧
    ∃ p b, openBlock keyMethod s₃.isamb (s₃.roots 0) = .ok (p, b) ∧ p.leaf = false := by
  have evaluated : ((twoLists.merge keyMethod 0 (wideOps 60 1)).toOption.any fun s₁ =>
      s₁.roots 0 != 0 && (s₁.merge keyMethod 0 (wideOps 9 0)).toOption.any fun s₂ =>
        (s₂.merge keyMethod 1 (wideOps 1 1)).toOption.any fun s₃ => s₃.roots 0 != 0 &&
          (openBlock keyMethod s₃.isamb (s₃.roots 0)).toOption.any fun r => !r.1.leaf) =
            true := by
    decide +kernel
  obtain ⟨s₁, filled, rest⟩ := ok_of_any evaluated
  obtain ⟨kept, rest⟩ := Bool.and_eq_true_iff.mp rest
  obtain ⟨s₂, deleted, rest⟩ := ok_of_any rest
  obtain ⟨s₃, other, rest⟩ := ok_of_any rest
  obtain ⟨kept₃, rest⟩ := Bool.and_eq_true_iff.mp rest
  obtain ⟨⟨p, b⟩, opened, internal⟩ := ok_of_any rest
  have start : Reachable (keyLawful 5) (Layout.isambOpen false) (fun _ _ _ => True) twoLists :=
    .empty
  have valid₁ : ValidMerge (keyLawful 5) twoLists 0 (wideOps 60 1) :=
    .of_inserts start (wideOps_valid (by decide) (.inr rfl)) wideOps_inserts
  have reachable₁ := start.merge valid₁ trivial filled
  have valid₂ : ValidMerge (keyLawful 5) s₁ 0 (wideOps 9 0) := by
    refine .of_contains reachable₁ (wideOps_valid (by decide) (.inl rfl)) fun x mem => ?_
    obtain ⟨k, below, same⟩ := List.mem_map.mp mem
    cases same
    refine (start.contains_iff valid₁ filled (bne_iff_ne.mp kept) _).mpr (.inr ?_)
    exact List.mem_map.mpr ⟨k, List.mem_range.mpr
      ((List.mem_range.mp below).trans (by decide)), rfl⟩
  have reachable₂ := reachable₁.merge valid₂ trivial deleted
  have valid₃ : ValidMerge (keyLawful 5) s₂ 1 (wideOps 1 1) :=
    .of_inserts reachable₂ (wideOps_valid (by decide) (.inr rfl)) wideOps_inserts
  exact ⟨s₁, s₂, s₃, ⟨filled, valid₁⟩, ⟨deleted, valid₂⟩, ⟨other, valid₃⟩, bne_iff_ne.mp kept₃, p,
    b, opened, by simpa using internal⟩

theorem split_reachable : ∃ s : Store (Fin 2),
    Reachable (keyLawful 5) (Layout.isambOpen false) (fun _ _ _ => True) s ∧ s.roots 0 ≠ 0 ∧
    ∃ p b, openBlock keyMethod s.isamb (s.roots 0) = .ok (p, b) ∧ p.leaf = false := by
  obtain ⟨_, _, s, ⟨filled, valid₁⟩, ⟨deleted, valid₂⟩, ⟨other, valid₃⟩, split⟩ := split_run
  exact ⟨s, ((Reachable.empty.merge valid₁ trivial filled).merge valid₂ trivial deleted).merge
    valid₃ trivial other, split⟩

end

end Zebra.Isamb
