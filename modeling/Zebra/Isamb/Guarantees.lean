import Zebra.Isamb.History

/-!
# What merges guarantee

Shape of the trees, counters, set semantics and reading, for every store that merges lead to.  Keys
of one length are compared and coded by `key_compare` and `iscz1`; the store is opened with any
layout, that of `isamb_open` among them.
-/

namespace Zebra.Isamb

open Finset

section

variable {Item Kid : Type}

def Spine.seps : Spine Item Kid → List Item
  | .last _ => []
  | .cons _ sep rest => sep :: rest.seps

/-- Items of a child are below the separator behind it, those of the next child are not. -/
def Spine.Separated [LinearOrder Item] (items : Kid → List Item) : Spine Item Kid → Prop
  | .last _ => True
  | .cons kid sep rest =>
    (∀ x ∈ items kid, x < sep) ∧ (∀ x ∈ items rest.head, sep ≤ x) ∧ rest.Separated items

variable {Code : Type} [LinearOrder Item] {m : IsamcM Item Code}

/-- The shape of a tree: every block fits, nodes and their children are in the largest category, and
separators separate. -/
def Tree.WellFormed (law : LawfulIsamc m) (b : Isamb) : {h : Nat} → Tree Item h → Prop
  | 0, t => t.pos % catMax < b.noCat ∧ (t.bytes law).length ≤ b.blockMax (t.pos % catMax)
  | _ + 1, t =>
    (t.pos % catMax = b.noCat - 1 ∧ (t.bytes law).length ≤ b.blockMax (t.pos % catMax)) ∧
      (Node.kids t).toList.length = (Node.kids t).seps.length + 1 ∧
      (Node.kids t).seps.Pairwise (· < ·) ∧ (Node.kids t).Separated Tree.items ∧
      ∀ kid ∈ (Node.kids t).toList, kid.pos % catMax = b.noCat - 1 ∧ WellFormed law b kid

omit [LinearOrder Item] in
theorem Spine.length_toList (spine : Spine Item Kid) :
    spine.toList.length = spine.seps.length + 1 := by
  induction spine with
  | last kid => rfl
  | cons kid sep rest ih => rw [toList, seps, List.length_cons, List.length_cons, ih]

variable {law : LawfulIsamc m} {layout : Layout} {low high : Option Item}

theorem Spine.Formed.seps_sorted {P : Option Item → Option Item → Kid → Prop}
    {spine : Spine Item Kid} (formed : spine.Formed law.Valid P low high) :
    spine.seps.Pairwise (· < ·) ∧ ∀ sep ∈ spine.seps, Beyond low sep := by
  induction spine generalizing low with
  | last kid => exact ⟨List.Pairwise.nil, nofun⟩
  | cons kid sep rest ih =>
    obtain ⟨⟨-, beyond, -⟩, -, rest_formed⟩ := formed
    obtain ⟨sorted, after⟩ := ih rest_formed
    refine ⟨List.pairwise_cons.mpr ⟨fun next mem => beyond_some.mp (after next mem), sorted⟩, ?_⟩
    intro next mem
    rcases List.mem_cons.mp mem with rfl | mem
    · exact beyond
    · exact fun u u_mem => (beyond u u_mem).trans (beyond_some.mp (after next mem))

theorem Spine.Formed.separated {P : Option Item → Option Item → Kid → Prop}
    {items : Kid → List Item}
    (kid_ok : ∀ low high kid, P low high kid → InOrder law low high (items kid))
    {spine : Spine Item Kid} (formed : spine.Formed law.Valid P low high) :
    spine.Separated items := by
  induction spine generalizing low with
  | last kid => trivial
  | cons kid sep rest ih =>
    obtain ⟨-, kid_formed, rest_formed⟩ := formed
    refine ⟨fun x mem => below_some.mp ((kid_ok _ _ _ kid_formed).bounds x mem).2.2,
      fun x mem => ?_, ih rest_formed⟩
    obtain ⟨high', head_formed⟩ : ∃ high', P (some sep) high' rest.head := by
      cases rest with
      | last kid => exact ⟨high, rest_formed⟩
      | cons kid sep' rest => exact ⟨some sep', rest_formed.2.1⟩
    exact above_some.mp ((kid_ok _ _ _ head_formed).bounds x mem).2.1

theorem Tree.Formed.wellFormed {b : Isamb} (shaped : Shaped layout b) {h : Nat} {t : Tree Item h}
    (formed : t.Formed law layout low high) : t.WellFormed law b := by
  have last : b.noCat - 1 = layout.btree := by rw [shaped.noCat]; rfl
  induction h generalizing low high with
  | zero =>
    have leaf : Tree.LeafFormed law layout low high t := formed
    have fits := leaf.fits
    rw [← shaped.blockMax _ leaf.cat] at fits
    exact ⟨shaped.noCat ▸ leaf.cat, fits⟩
  | succ h ih =>
    have node : Tree.NodeFormed law layout Tree.pos (Tree.Formed law layout) low high t := formed
    have cat : t.pos % catMax = layout.btree := node.cat
    refine ⟨⟨cat.trans last.symm, ?_⟩, Spine.length_toList _, node.kids.seps_sorted.1,
      node.kids.separated fun _ _ _ kid_formed => kid_formed.2.inOrder, fun kid mem => ?_⟩
    · rw [cat, shaped.blockMax _ layout.btree_lt]
      exact node.fits
    · obtain ⟨low', high', kid_cat, kid_formed⟩ := node.kids.of_mem mem
      exact ⟨kid_cat.trans last.symm, ih kid_formed⟩

end

section

variable {ι : Type} [Fintype ι] [DecidableEq ι]

/-- Every list is a well-formed tree of blocks on disk whose leaves are all at one depth, and no
merge ends in a failed assertion. -/
theorem reachable_wellFormed {n : Nat} {layout : Layout} {s : Store ι}
    (reachable : Reachable (keyLawful n) layout (fun _ _ _ => True) s) :
    (∀ i, s.roots i = 0 ∨ ∃ (h : Nat) (t : Tree ItKey h), t.pos = s.roots i ∧
      t.Stored (keyLawful n) s.isamb.view ∧ t.WellFormed (keyLawful n) s.isamb) ∧
      ∀ i ops, ValidMerge (keyLawful n) s i ops → s.merge keyMethod i ops ≠ .error .assertion := by
  obtain ⟨lists, holds⟩ := reachable.holds
  refine ⟨fun i => ?_, fun i ops valid failed => ?_⟩
  · have settled := holds.settled i
    have root := holds.roots i
    cases list : lists i with
    | empty =>
      rw [list] at root
      exact Or.inl root
    | @tree h t =>
      rw [list] at root settled
      exact Or.inr ⟨h, t, root.symm, settled.stored, settled.formed.wellFormed holds.sound.toShaped⟩
  · rcases holds.merge valid with full | ⟨s', list', run, -⟩
    · rw [full] at failed
      cases failed
    · rw [run] at failed
      cases failed

theorem reachable_wellFormed_split : ∃ s : Store (Fin 2),
    (∃ p b, openBlock keyMethod s.isamb (s.roots 0) = .ok (p, b) ∧ p.leaf = false) ∧
    (∀ i, s.roots i = 0 ∨ ∃ (h : Nat) (t : Tree ItKey h), t.pos = s.roots i ∧
      t.Stored (keyLawful 5) s.isamb.view ∧ t.WellFormed (keyLawful 5) s.isamb) ∧
      ∀ i ops, ValidMerge (keyLawful 5) s i ops → s.merge keyMethod i ops ≠ .error .assertion := by
  obtain ⟨s, reachable, -, internal⟩ := split_reachable
  exact ⟨s, internal, reachable_wellFormed reachable⟩

theorem keyGraded {n : Nat} {key : ItKey} (length : key.length = n) :
    Graded (keyLawful n) (some key) := by
  rintro u ⟨⟩ x y x_valid y_valid le
  exact keyCompare_antitone le (x_valid.2.trans length.symm) (y_valid.2.trans length.symm)

/-- Calls of `isamb_pp_forward` and `isamb_pp_read` on one cursor return what repeated reading
would: each the first item that passes of those strictly after the last one returned, and nothing
any more once a call has returned nothing. -/
theorem forward_agrees_with_reading {Item Code : Type} [LinearOrder Item] {m : IsamcM Item Code}
    {law : LawfulIsamc m} {layout : Layout} [Suits law layout] {s : Store ι}
    (reachable : Reachable law layout (fun _ _ _ => True) s) {i : ι} (kept : s.roots i ≠ 0)
    (scope : Int) {calls : List (Option Item)} (graded : ∀ untilb ∈ calls, Graded law untilb) :
    ∃ items pp, Reads m scope s.isamb (s.roots i) items ∧
      ppOpenX m s.isamb (s.roots i) scope = .ok pp ∧
      (ppCalls m pp calls).map Prod.fst = .ok (returned m scope true items none false calls) ∧
      ∀ fuel, items.length < fuel →
        (readCalls m fuel pp calls).map Prod.fst =
          .ok (returned m scope true items none false calls) := by
  obtain ⟨lists, holds⟩ := reachable.holds
  have sound := holds.sound
  rw [← sum_erase_add _ _ (mem_univ i)] at sound
  have settled := holds.settled i
  have root := holds.roots i
  have read := (holds.reads_iff i scope _).mpr rfl
  have sorted := holds.sorted i
  have none_behind : (lists i).items = (lists i).items.filter (behind none) :=
    (List.filter_eq_self.mpr fun _ _ => rfl).symm
  have skimmed_eq := skimmed_eq_returned m scope false sorted calls none_behind
  cases list : lists i with
  | empty =>
    rw [list] at root
    exact absurd root kept
  | tree t =>
    rw [list] at settled root sound read skimmed_eq
    obtain ⟨pp, blocks, unread, opened, reading⟩ :=
      ppOpenX_spec (m := m) sound (Multiset.le_add_left _ _) settled scope
    obtain ⟨pp', run⟩ := ppCalls_spec graded reading
    change skimmed m scope t.items calls = returned m scope true t.items none false calls
      at skimmed_eq
    refine ⟨t.items, pp, read, ?_, ?_, fun fuel enough => ?_⟩
    · rw [root]
      exact opened
    · rw [run, ← skimmed_eq]
      rfl
    · obtain ⟨pp'', run'⟩ := readCalls_spec (m := m) calls reading enough
      rw [run', ← skimmed_eq]
      rfl

theorem forward_agrees_with_reading_split : ∃ s : Store (Fin 2),
    (∃ p b, openBlock keyMethod s.isamb (s.roots 0) = .ok (p, b) ∧ p.leaf = false) ∧
    let calls := [none, some (wideKey 30), none, some (wideKey 70)]
    ∃ items pp, Reads keyMethod 1 s.isamb (s.roots 0) items ∧
      ppOpenX keyMethod s.isamb (s.roots 0) 1 = .ok pp ∧
      (ppCalls keyMethod pp calls).map Prod.fst =
        .ok (returned keyMethod 1 true items none false calls) ∧
      ∀ fuel, items.length < fuel →
        (readCalls keyMethod fuel pp calls).map Prod.fst =
          .ok (returned keyMethod 1 true items none false calls) := by
  obtain ⟨s, reachable, kept, internal⟩ := split_reachable
  refine ⟨s, internal, forward_agrees_with_reading reachable kept 1 ?_⟩
  simp only [List.forall_mem_cons, graded_none, true_and]
  exact ⟨keyGraded rfl, keyGraded rfl, List.forall_mem_nil _⟩

/-- The key 5 is strictly after what was returned before, which is nothing, and it is not returned:
the call before has gone past it. -/
theorem forward_skips_for_good : ¬∀ s : Store (Fin 1),
    Reachable (keyLawful 1) (Layout.isambOpen false) (fun _ _ _ => True) s → s.roots 0 ≠ 0 →
      ∀ (scope : Int) (calls : List (Option ItKey)),
        (∀ untilb ∈ calls, Graded (keyLawful 1) untilb) →
          ∃ items pp, Reads keyMethod scope s.isamb (s.roots 0) items ∧
            ppOpenX keyMethod s.isamb (s.roots 0) scope = .ok pp ∧
            (ppCalls keyMethod pp calls).map Prod.fst =
              .ok (returned keyMethod scope false items none false calls) := by
  intro agrees
  obtain ⟨s, run, kept, read, pp, opened, calls⟩ := single_run
  have reachable : Reachable (keyLawful 1) (Layout.isambOpen false) (fun _ _ _ => True) s :=
    .merge .empty single_valid trivial run
  have graded : ∀ untilb ∈ [some [7], none], Graded (keyLawful 1) untilb :=
    List.forall_mem_cons.mpr
      ⟨keyGraded rfl, List.forall_mem_cons.mpr ⟨graded_none, List.forall_mem_nil _⟩⟩
  obtain ⟨items, pp', read', opened', calls'⟩ := agrees s reachable kept 1 _ graded
  obtain ⟨lists, holds⟩ := reachable.holds
  obtain rfl : items = [[5]] :=
    ((holds.reads_iff 0 1 items).mp read').trans ((holds.reads_iff 0 1 _).mp read).symm
  rw [opened] at opened'
  cases opened'
  rw [calls] at calls'
  revert calls'
  decide

end

end Zebra.Isamb
