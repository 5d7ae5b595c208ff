import Mathlib.Data.List.TakeWhile
import Zebra.Isamb.Cursor
import Zebra.Isamb.MergeSpec

/-!
# Skipping agrees with scanning

What a cursor has still to read is a list of items; `isamb_pp_forward` drops from it what does not
pass and takes the first item that does, however many subtrees it skips on the way.
-/

namespace Zebra.Isamb

open List
open Isamb.Tree (pos)
open Multiset (card_le_card mem_add)

variable {Item Code : Type} [LinearOrder Item] {m : IsamcM Item Code} {law : LawfulIsamc m}
  {layout : Layout} {own : Multiset Nat} {view : Nat → Option DiskBlock} {scope : Int}
  {untilb : Option Item} {h : Nat}

/-- Seen from `untilb`, a larger item never compares higher. -/
def Graded (law : LawfulIsamc m) (untilb : Option Item) : Prop :=
  ∀ u ∈ untilb, ∀ x y, law.Valid x → law.Valid y → x ≤ y → m.compareItem u y ≤ m.compareItem u x

theorem graded_none : Graded law none := nofun

/-- What is in front of an item that does not pass does not pass either. -/
theorem Graded.not_passes (graded : Graded law untilb) {x y : Item} (x_valid : law.Valid x)
    (y_valid : law.Valid y) (le : x ≤ y) (fails : passes m scope untilb y = false) :
    passes m scope untilb x = false := by
  cases untilb with
  | none => simp [passes] at fails
  | some u =>
    have grade := graded u rfl x y x_valid y_valid le
    simp only [passes, decide_eq_false_iff_not] at fails ⊢
    omega

omit [LinearOrder Item] in
theorem src_seek {p : Block Code} (front src : List Byte) (split : p.src = front ++ src) :
    (p.seek src).src = src ∧ (p.seek src).offset ≤ p.bytes.length := by
  have whole : p.bytes = p.bytes.take p.offset ++ (front ++ src) := by
    rw [← split]
    exact (take_append_drop _ _).symm
  refine ⟨?_, Nat.sub_le _ _⟩
  change p.bytes.drop (p.bytes.length - src.length) = src
  have lengths := congrArg List.length whole
  rw [length_append, length_append] at lengths
  rw [← append_assoc] at whole
  rw [whole, drop_left']
  simp only [length_append] at lengths ⊢
  omega

omit [LinearOrder Item] in
theorem offset_eq_iff {p : Block Code} (le : p.offset ≤ p.bytes.length) :
    p.offset = p.bytes.length ↔ p.src = [] := by
  rw [Block.src, drop_eq_nil_iff]
  omega

variable (scope) in
/-- Children that are skipped have no item that passes. -/
theorem skipKids_spec {spine : Spine Item (Tree Item h)} (graded : Graded law untilb)
    {low high : Option Item}
    (formed : spine.Formed law.Valid
      (fun low high kid => kid.pos % catMax = layout.btree ∧
        kid.Formed law layout low high) low high)
    {fuel : Nat} (enough : spine.toList.length ≤ fuel) :
    ∃ left kid right, spine = .plug left (.headed kid right) ∧
      skipKids m scope untilb fuel spine.head.pos (spine.tailBytes law pos) =
        some (kid.pos, rightBytes law pos right) ∧
      ∀ x ∈ kidsItems (left.map Prod.fst), passes m scope untilb x = false := by
  induction spine generalizing low fuel with
  | last kid =>
    obtain ⟨fuel, rfl⟩ := Nat.exists_eq_add_of_le' enough
    exact ⟨[], kid, none, rfl, if_pos (.inr rfl), nofun⟩
  | cons kid sep rest ih =>
    obtain ⟨⟨valid, -, -⟩, ⟨-, kid_formed⟩, rest_formed⟩ := formed
    obtain ⟨fuel, rfl⟩ := Nat.exists_eq_add_of_le' (Nat.one_le_of_lt enough)
    have nonempty := separator_ne_nil valid (rest.bytes law pos)
    by_cases stop : untilb.isNone ∨ passes m scope untilb sep = true
    · refine ⟨[], kid, some (sep, rest), rfl, ?_, nofun⟩
      change skipKids m scope untilb (fuel + 1) kid.pos
        (law.piece none sep ++ rest.bytes law pos) = _
      rcases stop with scan | pass
      · rw [skipKids, if_pos (.inl scan)]
        rfl
      · rw [skipKids]
        split
        · rfl
        · simp only [decode_separator valid, Option.bind_eq_bind, Option.bind_some, pass, if_true]
          rfl
    · obtain ⟨forward, fails⟩ := not_or.mp stop
      rw [Bool.not_eq_true] at fails
      obtain ⟨left, kid', right, rest_eq, run, skipped⟩ :=
        ih rest_formed (Nat.le_of_succ_le_succ enough)
      refine ⟨(kid, sep) :: left, kid', right, by rw [rest_eq]; rfl, ?_, ?_⟩
      · change skipKids m scope untilb (fuel + 1) kid.pos
          (law.piece none sep ++ rest.bytes law pos) = _
        rw [skipKids, if_neg (not_or.mpr ⟨forward, nonempty⟩)]
        simp only [decode_separator valid, Option.bind_eq_bind, Option.bind_some, fails,
          Bool.false_eq_true, if_false, decodePtr_bytes]
        exact run
      · intro x mem
        rw [map_cons, kidsItems, flatMap_cons, mem_append] at mem
        rcases mem with mem | mem
        · obtain ⟨x_valid, -, below⟩ := kid_formed.inOrder.bounds x mem
          exact graded.not_passes x_valid valid (below_some.mp below).le fails
        · exact skipped x mem

def KidsReady (law : LawfulIsamc m) (layout : Layout) (view : Nat → Option DiskBlock)
    (right : Option (Item × Spine Item (Tree Item h))) : Prop :=
  (∃ low high, RightFormed law.Valid
    (fun low high kid => kid.pos % catMax = layout.btree ∧ kid.Formed law layout low high)
    low high right) ∧ ∀ kid ∈ rightKids right, kid.Stored law view

/-- The nodes above a tree of depth `h`: what is left of them to read, and its blocks. -/
inductive Path (law : LawfulIsamc m) (layout : Layout) (view : Nat → Option DiskBlock) :
    Nat → List (Block Code) → List Item → Multiset Nat → Prop
  | top {h : Nat} : Path law layout view h [] [] 0
  /-- A node, read up to where `right` starts. -/
  | node {h : Nat} {p : Block Code} {stack : List (Block Code)} {items : List Item}
      {blocks : Multiset Nat} {right : Option (Item × Spine Item (Tree Item h))}
      (leaf : p.leaf = false) (src : p.src = rightBytes law Tree.pos right)
      (offset_le : p.offset ≤ p.bytes.length) (ready : KidsReady law layout view right)
      (above : Path law layout view (h + 1) stack items blocks) :
      Path law layout view h (p :: stack) (kidsItems (rightKids right) ++ items)
        (kidsBlocks (rightKids right) + blocks)

/-- A cursor at a leaf: `unread` tells whether the leaf is read to its end. -/
structure AtLeaf (law : LawfulIsamc m) (layout : Layout) (view : Nat → Option DiskBlock)
    (block : List (Block Code)) (xs items : List Item) (blocks : Multiset Nat) : Prop where
  /-- The leaf is the current block, read up to the code of `xs`. -/
  leaf : ∃ p stack prev, block = p :: stack ∧ p.leaf = true ∧ p.src = law.codes prev xs ∧
    p.offset ≤ p.bytes.length ∧ p.decodeClientData = law.state prev ∧
    (∀ y ∈ prev, law.Valid y) ∧ Path law layout view 0 stack items blocks
  valid : ∀ x ∈ xs, law.Valid x

theorem openBlock_unread {b : Isamb} {t : Tree Item h} (sound : Sound layout b own)
    (mem : t.pos ∈ own) (stored : t.Stored law b.view) :
    ∃ (p : Block Code) (b' : Isamb), openBlock m b t.pos = .ok (p, b') ∧ Sound layout b' own ∧
      b'.view = b.view ∧ p.leaf = Tree.isLeaf h ∧ p.bytes = t.bytes law ∧ p.offset = 0 ∧
      p.src = t.bytes law ∧ p.decodeClientData = m.reset := by
  obtain ⟨b', opened, sound', view_eq⟩ :=
    openBlock_spec (m := m) sound mem (Tree.stored_iff.mp stored).1
  exact ⟨_, b', opened, sound', view_eq, rfl, rfl, rfl, rfl, rfl⟩

omit [LinearOrder Item] in
/-- What is left to read when children have been skipped. -/
theorem kids_split {left : List (Tree Item h × Item)} {kid : Tree Item h}
    {right : Option (Item × Spine Item (Tree Item h))} {spine : Spine Item (Tree Item h)}
    (kids : spine = .plug left (.headed kid right)) :
    kidsItems spine.toList =
        kidsItems (left.map Prod.fst) ++ (kid.items ++ kidsItems (rightKids right)) ∧
      kidsBlocks spine.toList =
        kidsBlocks (left.map Prod.fst) + (kid.blocks + kidsBlocks (rightKids right)) := by
  subst kids
  constructor
  · simp [kidsItems]
  · simp [kidsBlocks]

variable (scope) in
/-- Going down into a tree skips only items that do not pass. -/
theorem enter_spec (graded : Graded law untilb) {fuel : Nat} (enough : h < fuel) {b : Isamb}
    {t : Tree Item h} {low high : Option Item} {stack : List (Block Code)} {items : List Item}
    {blocks : Multiset Nat} (sound : Sound layout b own) (le : t.blocks + blocks ≤ own)
    (formed : t.Formed law layout low high) (stored : t.Stored law b.view)
    (path : Path law layout b.view h stack items blocks) :
    ∃ block b' xs items' blocks' skipped,
      enter m scope untilb fuel b t.pos stack = .ok (block, b') ∧
      Sound layout b' own ∧ b'.view = b.view ∧ AtLeaf law layout b.view block xs items' blocks' ∧
      t.items ++ items = skipped ++ (xs ++ items') ∧
      (∀ x ∈ skipped, passes m scope untilb x = false) ∧ blocks' ≤ t.blocks + blocks ∧
      blocks'.card < (t.blocks + blocks).card := by
  induction h generalizing fuel b low high stack items blocks with
  | zero =>
    have mem : t.pos ∈ own :=
      Multiset.mem_of_le le (mem_add.mpr (.inl t.pos_mem_blocks))
    obtain ⟨p, b', opened, sound', view_eq, p_leaf, p_bytes, p_offset, p_src, p_code⟩ :=
      openBlock_unread (m := m) sound mem stored
    obtain ⟨fuel, rfl⟩ := Nat.exists_eq_add_one.mpr enough
    have leaf : Tree.LeafFormed law layout low high t := formed
    refine ⟨p :: stack, b', t.items, items, blocks, [], ?_, sound', view_eq,
      ⟨⟨p, stack, none, rfl, p_leaf, p_src, p_offset ▸ Nat.zero_le _, p_code, nofun, path⟩,
        fun x x_mem => (leaf.bounds x x_mem).1⟩, rfl, nofun, Multiset.le_add_left _ _, ?_⟩
    · have at_leaf : p.leaf = true := p_leaf
      simp only [enter, opened, bind, Except.bind, at_leaf, if_true]
    · have card := t.lt_card_blocks
      rw [Multiset.card_add]
      omega
  | succ h ih =>
    have mem : t.pos ∈ own :=
      Multiset.mem_of_le le (mem_add.mpr (.inl t.pos_mem_blocks))
    obtain ⟨p, b', opened, sound', view_eq, p_leaf, p_bytes, p_offset, p_src, p_code⟩ :=
      openBlock_unread (m := m) sound mem stored
    obtain ⟨fuel, rfl⟩ := Nat.exists_eq_add_one.mpr (Nat.zero_lt_of_lt enough)
    have node : Tree.NodeFormed law layout pos (Tree.Formed law layout) low high t := formed
    have kids_stored : ∀ kid ∈ (Node.kids t).toList, kid.Stored law b'.view :=
      view_eq ▸ stored.2
    have bytes : p.bytes = (Node.kids t).bytes law pos := p_bytes
    have src : p.src = (Node.kids t).bytes law pos := p_src
    have at_node : p.leaf = false := p_leaf
    obtain ⟨left, kid, right, kids, skip, skipped_kids⟩ := skipKids_spec (m := m) scope
      graded node.kids ((Node.kids t).length_le_bytes law pos)
    rw [← bytes] at skip
    obtain ⟨kids_items, kids_blocks⟩ := kids_split kids
    have kids_formed := node.kids
    rw [kids] at kids_formed kids_stored
    obtain ⟨⟨-, kid_formed⟩, right_formed⟩ :=
      Spine.formed_headed.mp (Spine.formed_plug.mp kids_formed).2
    rw [Spine.toList_plug, Spine.toList_headed] at kids_stored
    obtain ⟨p'_src, p'_offset⟩ := src_seek (p := p)
      (leftBytes law pos left ++ encodePtr kid.pos) (rightBytes law pos right) (by
        rw [src, kids, Spine.bytes_plug, Spine.bytes_headed, append_assoc])
    have path' : Path law layout b'.view h (p.seek (rightBytes law pos right) :: stack)
        (kidsItems (rightKids right) ++ items) (kidsBlocks (rightKids right) + blocks) :=
      .node at_node p'_src p'_offset ⟨⟨_, _, right_formed⟩, fun side side_mem => kids_stored side
        (mem_append_right _ (mem_cons_of_mem kid side_mem))⟩ (view_eq ▸ path)
    have t_items : t.items = kidsItems (Node.kids t).toList := rfl
    have t_blocks : t.blocks = {t.pos} + kidsBlocks (Node.kids t).toList := rfl
    have part : kid.blocks + (kidsBlocks (rightKids right) + blocks) ≤ t.blocks + blocks := by
      rw [t_blocks, kids_blocks, ← add_assoc]
      refine add_le_add ?_ le_rfl
      exact (Multiset.le_add_left _ _).trans (Multiset.le_add_left _ _)
    have kid_stored : kid.Stored law b'.view := kids_stored kid (by simp)
    obtain ⟨block, b'', xs, items', blocks', skipped, run, sound'', view'', at_leaf, rest_items,
      skipped_fail, blocks_le, card_lt⟩ := ih (Nat.lt_of_succ_lt_succ enough) sound'
        (part.trans le) kid_formed kid_stored path'
    refine ⟨block, b'', xs, items', blocks', kidsItems (left.map Prod.fst) ++ skipped, ?_, sound'',
      view''.trans view_eq, view_eq ▸ at_leaf, ?_, ?_, blocks_le.trans part,
      card_lt.trans_le (card_le_card part)⟩
    · simp only [enter, opened, bind, Except.bind, at_node, Bool.false_eq_true, if_false, src,
        decodePtr_bytes, Option.bind, skip, run]
    · rw [t_items, kids_items, append_assoc, append_assoc, rest_items,
        append_assoc]
    · intro x x_mem
      rcases mem_append.mp x_mem with x_mem | x_mem
      · exact skipped_kids x x_mem
      · exact skipped_fail x x_mem

/-- A node of the way that is not read to its end. -/
structure AtNode (law : LawfulIsamc m) (layout : Layout) (view : Nat → Option DiskBlock)
    (p : Block Code) (stack : List (Block Code)) (sep : Item) (spine : Spine Item (Tree Item h))
    (items : List Item) (blocks : Multiset Nat) : Prop where
  leaf : p.leaf = false
  src : p.src = law.piece none sep ++ spine.bytes law Tree.pos
  offset_le : p.offset ≤ p.bytes.length
  ready : KidsReady law layout view (some (sep, spine))
  above : ∃ items' blocks', Path law layout view (h + 1) stack items' blocks' ∧
    items = kidsItems spine.toList ++ items' ∧ blocks = kidsBlocks spine.toList + blocks'

/-- Climbing ends at the root, with nothing left, or at a node with children left. -/
theorem climb_spec {stack : List (Block Code)} {items : List Item} {blocks : Multiset Nat}
    (path : Path law layout view h stack items blocks) (below : stack ≠ []) :
    (∃ p, climb stack = [p] ∧ p.offset = p.bytes.length ∧ p.leaf = false ∧ items = []) ∨
      ∃ (h' : Nat) (p : Block Code) (stack' : List (Block Code)) (sep : Item)
        (spine : Spine Item (Tree Item h')), climb stack = p :: stack' ∧
        AtNode law layout view p stack' sep spine items blocks := by
  induction path with
  | top => exact absurd rfl below
  | @node h p stack items blocks right leaf src offset_le ready above ih =>
    rcases right with _ | ⟨sep, spine⟩
    · have finished : p.offset = p.bytes.length := (offset_eq_iff offset_le).mpr src
      cases stack with
      | nil =>
        cases above
        exact .inl ⟨p, rfl, finished, leaf, rfl⟩
      | cons q stack =>
        have step : climb (p :: q :: stack) = climb (q :: stack) := by
          rw [climb, if_pos finished]
        have items_eq : kidsItems (rightKids (none : Option (Item × Spine Item (Tree Item h)))) ++
            items = items := rfl
        have blocks_eq : kidsBlocks (rightKids (none : Option (Item × Spine Item (Tree Item h)))) +
            blocks = blocks := zero_add blocks
        rw [step, items_eq, blocks_eq]
        exact ih (cons_ne_nil q stack)
    · refine .inr ⟨h, p, stack, sep, spine, ?_, leaf, src, offset_le, ready,
        items, blocks, above, rfl, rfl⟩
      obtain ⟨⟨low, high, right_formed⟩, -⟩ := ready
      have unread : p.offset ≠ p.bytes.length := by
        rw [Ne, offset_eq_iff offset_le, src]
        exact separator_ne_nil right_formed.1.1 _
      cases stack with
      | nil => rfl
      | cons q stack => rw [climb, if_neg unread]

/-- Where a cursor is, what is left to read and which blocks that may open. -/
inductive CursorAt (law : LawfulIsamc m) (layout : Layout) (view : Nat → Option DiskBlock) :
    List (Block Code) → List Item → Multiset Nat → Bool → Prop
  | leaf {block : List (Block Code)} {xs items : List Item} {blocks : Multiset Nat}
      (at_leaf : AtLeaf law layout view block xs items blocks) :
      CursorAt law layout view block (xs ++ items) blocks (!xs.isEmpty)
  | done {p : Block Code} (finished : p.offset = p.bytes.length) (leaf : p.leaf = false) :
      CursorAt law layout view [p] [] 0 false

/-- A cursor on the blocks `own`. -/
structure Reading (law : LawfulIsamc m) (layout : Layout) (own : Multiset Nat)
    (view : Nat → Option DiskBlock) (scope : Int) (pp : PP Code) (items : List Item)
    (blocks : Multiset Nat) (unread : Bool) : Prop where
  sound : Sound layout pp.isamb own
  view_eq : pp.isamb.view = view
  scope_eq : pp.scope = scope
  at_pos : CursorAt law layout view pp.block items blocks unread
  le : blocks ≤ own

variable {pp : PP Code}

theorem nextLeaf_spec (graded : Graded law untilb) {p : Block Code}
    {stack : List (Block Code)} {items : List Item} {blocks : Multiset Nat}
    (sound : Sound layout pp.isamb own) (le : blocks ≤ own) (block : pp.block = p :: stack)
    (finished : p.offset = p.bytes.length)
    (path : Path law layout pp.isamb.view 0 stack items blocks) :
    (∃ q, nextLeaf m untilb pp = .ok (false, { pp with block := [q] }) ∧
        q.offset = q.bytes.length ∧ (q = p ∧ stack = [] ∨ q.leaf = false) ∧ items = []) ∨
      ∃ block' isamb xs items' blocks' skipped,
        nextLeaf m untilb pp = .ok (true, { pp with isamb, block := block' }) ∧
        Sound layout isamb own ∧ isamb.view = pp.isamb.view ∧
        AtLeaf law layout pp.isamb.view block' xs items' blocks' ∧
        items = skipped ++ (xs ++ items') ∧
        (∀ x ∈ skipped, passes m pp.scope untilb x = false) ∧ blocks' ≤ own ∧
        blocks'.card < blocks.card := by
  cases stack with
  | nil =>
    cases path
    refine .inl ⟨p, ?_, finished, .inl ⟨rfl, rfl⟩, rfl⟩
    simp only [nextLeaf, block, climb, if_pos finished]
  | cons q stack =>
    have step : climb pp.block = climb (q :: stack) := by
      rw [block, climb, if_pos finished]
    rcases climb_spec path (cons_ne_nil q stack) with
      ⟨root, climbed, root_finished, root_node, items_eq⟩ |
        ⟨h', p', stack', sep, spine, climbed, node⟩
    · refine .inl ⟨root, ?_, root_finished, .inr root_node, items_eq⟩
      simp only [nextLeaf, step, climbed, if_pos root_finished]
    · obtain ⟨⟨low, high, ⟨valid, -, -⟩, spine_formed⟩, spine_stored⟩ := node.ready
      obtain ⟨items₁, blocks₁, above, items_eq, blocks_eq⟩ := node.above
      have unread : p'.offset ≠ p'.bytes.length := by
        rw [Ne, offset_eq_iff node.offset_le, node.src]
        exact separator_ne_nil valid _
      have enough : spine.toList.length ≤ p'.bytes.length := by
        have kids_le := spine.length_le_bytes law pos
        have src_le : p'.src.length ≤ p'.bytes.length := by
          rw [Block.src, length_drop]
          exact Nat.sub_le _ _
        rw [node.src, length_append] at src_le
        omega
      obtain ⟨left, kid, right, kids, skip, skipped_kids⟩ := skipKids_spec (m := m)
        pp.scope graded spine_formed enough
      obtain ⟨kids_items, kids_blocks⟩ := kids_split kids
      have kids_formed := spine_formed
      rw [kids] at kids_formed
      obtain ⟨⟨-, kid_formed⟩, right_formed⟩ :=
        Spine.formed_headed.mp (Spine.formed_plug.mp kids_formed).2
      have kids_stored : ∀ side ∈ spine.toList, side.Stored law pp.isamb.view := spine_stored
      rw [kids, Spine.toList_plug, Spine.toList_headed] at kids_stored
      obtain ⟨p''_src, p''_offset⟩ := src_seek (p := p')
        (law.piece none sep ++ (leftBytes law pos left ++ encodePtr kid.pos))
        (rightBytes law pos right) (by
          rw [node.src, kids, Spine.bytes_plug, Spine.bytes_headed, append_assoc,
            append_assoc])
      have path' : Path law layout pp.isamb.view h'
          (p'.seek (rightBytes law pos right) :: stack')
          (kidsItems (rightKids right) ++ items₁) (kidsBlocks (rightKids right) + blocks₁) :=
        .node node.leaf p''_src p''_offset ⟨⟨_, _, right_formed⟩, fun side side_mem =>
          kids_stored side (mem_append_right _ (mem_cons_of_mem kid side_mem))⟩ above
      have part : kid.blocks + (kidsBlocks (rightKids right) + blocks₁) ≤ blocks := by
        rw [blocks_eq, kids_blocks, ← add_assoc]
        exact add_le_add (Multiset.le_add_left _ _) le_rfl
      have deep : h' < pp.isamb.maxLevels := by
        have levels := kid.lt_card_blocks
        have part_card := card_le_card (part.trans le)
        have card := sound.card_lt
        rw [Multiset.card_add] at part_card
        omega
      obtain ⟨block', isamb, xs, items', blocks', skipped, run, sound', view', at_leaf, rest_items,
        skipped_fail, blocks_le, card_lt⟩ := enter_spec (m := m) pp.scope graded deep
          sound (part.trans le) kid_formed (kids_stored kid (by simp)) path'
      refine .inr ⟨block', isamb, xs, items', blocks', kidsItems (left.map Prod.fst) ++ skipped,
        ?_, sound', view', at_leaf, ?_, ?_, blocks_le.trans (part.trans le),
        card_lt.trans_le (card_le_card part)⟩
      · simp only [nextLeaf, step, climbed, if_neg unread, node.leaf, Bool.false_eq_true, if_false,
          node.src, decodeEntry_bytes valid, Option.bind_some, skip, run,
          bind, Except.bind]
      · rw [items_eq, kids_items, append_assoc, append_assoc, rest_items,
          append_assoc]
      · intro x x_mem
        rcases mem_append.mp x_mem with x_mem | x_mem
        · exact skipped_kids x x_mem
        · exact skipped_fail x x_mem

variable (scope untilb) in
theorem forwardLeaf_spec {prev : Option Item} {xs : List Item}
    (prev_valid : ∀ y ∈ prev, law.Valid y) (valid : ∀ x ∈ xs, law.Valid x) (ne : xs ≠ [])
    {fuel : Nat} (enough : xs.length ≤ fuel) :
    (∃ skipped x rest, xs = skipped ++ x :: rest ∧
        (∀ y ∈ skipped, passes m scope untilb y = false) ∧ passes m scope untilb x = true ∧
        forwardLeaf m scope untilb fuel (law.state prev) (law.codes prev xs) =
          some (some x, law.state (some x), law.codes (some x) rest)) ∨
      ∃ last ∈ xs, (∀ y ∈ xs, passes m scope untilb y = false) ∧
        forwardLeaf m scope untilb fuel (law.state prev) (law.codes prev xs) =
          some (none, law.state (some last), []) := by
  induction xs generalizing prev fuel with
  | nil => exact absurd rfl ne
  | cons x xs ih =>
    obtain ⟨fuel, rfl⟩ := Nat.exists_eq_add_of_le' (Nat.one_le_of_lt enough)
    have x_valid := valid x mem_cons_self
    have xs_valid : ∀ y ∈ xs, law.Valid y := fun y mem => valid y (mem_cons_of_mem x mem)
    have x_prev : ∀ y ∈ some x, law.Valid y := by
      rintro _ ⟨⟩
      exact x_valid
    have decoded : forwardLeaf m scope untilb (fuel + 1) (law.state prev)
        (law.codes prev (x :: xs)) =
        if passes m scope untilb x then some (some x, law.after x, law.codes (some x) xs)
        else if law.codes (some x) xs = [] then some (none, law.after x, law.codes (some x) xs)
        else forwardLeaf m scope untilb fuel (law.after x) (law.codes (some x) xs) := by
      simp only [forwardLeaf, law.codes_cons, law.decode_piece prev_valid x_valid,
        Option.bind_eq_bind, Option.bind_some]
    rw [decoded]
    cases pass : passes m scope untilb x with
    | true => exact .inl ⟨[], x, xs, rfl, nofun, pass, if_pos rfl⟩
    | false =>
      rw [if_neg Bool.false_ne_true]
      by_cases last : xs = []
      · subst last
        refine .inr ⟨x, mem_cons_self, ?_, if_pos rfl⟩
        intro y mem
        rw [mem_singleton.mp mem, pass]
      · have more : law.codes (some x) xs ≠ [] := by
          have size := law.two_mul_le_codes x_prev xs_valid
          have length_pos := length_pos_of_ne_nil last
          exact ne_nil_of_length_pos (by omega)
        rw [if_neg more]
        rcases ih x_prev xs_valid last (Nat.le_of_succ_le_succ enough) with
          ⟨skipped, y, rest, split, fails, y_pass, run⟩ | ⟨y, mem, fails, run⟩
        · refine .inl ⟨x :: skipped, y, rest, by rw [split]; rfl, ?_, y_pass, run⟩
          intro z z_mem
          rcases mem_cons.mp z_mem with rfl | z_mem
          · exact pass
          · exact fails z z_mem
        · refine .inr ⟨y, mem_cons_of_mem x mem, ?_, run⟩
          intro z z_mem
          rcases mem_cons.mp z_mem with rfl | z_mem
          · exact pass
          · exact fails z z_mem

/-- What a call leaves to read, and the item it returns in front of that. -/
def forwarded (m : IsamcM Item Code) (scope : Int) (untilb : Option Item) (items : List Item) :
    List Item := items.dropWhile fun x => !passes m scope untilb x

omit [LinearOrder Item] in
theorem forwarded_append {skipped items : List Item}
    (fails : ∀ x ∈ skipped, passes m scope untilb x = false) :
    forwarded m scope untilb (skipped ++ items) = forwarded m scope untilb items := by
  rw [forwarded, dropWhile_append_of_pos]
  · rfl
  · intro x mem
    rw [fails x mem]
    rfl

omit [LinearOrder Item] in
theorem forwarded_cons {x : Item} {items : List Item} (pass : passes m scope untilb x = true) :
    forwarded m scope untilb (x :: items) = x :: items := by
  rw [forwarded, dropWhile_cons, pass]
  rfl

variable {unread : Bool}

/-- `isamb_pp_forward` returns the first item left that passes. -/
theorem forwardFrom_spec (graded : Graded law untilb) {fuel : Nat} {items : List Item}
    {blocks : Multiset Nat} (reading : Reading law layout own view scope pp items blocks unread)
    (enough : 2 * blocks.card + unread.toNat < fuel) :
    ∃ pp' blocks' unread', forwardFrom m untilb fuel pp =
        .ok ((forwarded m scope untilb items).head?, pp') ∧
      Reading law layout own view scope pp'
        (forwarded m scope untilb items).tail blocks' unread' := by
  induction fuel generalizing pp items blocks unread with
  | zero => cases enough
  | succ fuel ih =>
    obtain ⟨sound, view_eq, scope_eq, at_pos, le⟩ := reading
    generalize block : pp.block = block' at at_pos
    cases at_pos with
    | @done p finished leaf =>
      have ended : nextLeaf m untilb pp = .ok (false, pp) := by
        have same : ({ pp with block := [p] } : PP Code) = pp := by rw [← block]
        simp only [nextLeaf, block, climb, if_pos finished, same]
      refine ⟨pp, 0, false, ?_, sound, view_eq, scope_eq, ?_, le⟩
      · simp only [forwardFrom, block, if_pos finished, ended, bind, Except.bind,
          Bool.false_eq_true, if_false]
        rfl
      · rw [block]
        exact .done finished leaf
    | @leaf _ xs items blocks at_leaf =>
      obtain ⟨⟨p, stack, prev, rfl, leaf, src, offset_le, code, prev_valid, path⟩, valid⟩ :=
        at_leaf
      subst view_eq scope_eq
      by_cases read : xs = []
      · -- the leaf is read to its end
        subst read
        have finished : p.offset = p.bytes.length := (offset_eq_iff offset_le).mpr src
        rcases nextLeaf_spec graded sound le block finished path with
          ⟨q, ended, q_finished, q_kind, rfl⟩ |
            ⟨block', isamb, xs', items', blocks', skipped, entered, sound', view', at_leaf,
              items_eq, fails, le', card_lt⟩
        · refine ⟨{ pp with block := [q] }, 0, false, ?_, sound, rfl, rfl, ?_, Multiset.zero_le _⟩
          · simp only [forwardFrom, block, if_pos finished, ended, bind, Except.bind,
              Bool.false_eq_true, if_false]
            rfl
          · rcases q_kind with ⟨rfl, rfl⟩ | node
            · have at_end : AtLeaf law layout pp.isamb.view [q] [] [] 0 :=
                ⟨⟨q, [], prev, rfl, leaf, src, offset_le, code, prev_valid, .top⟩, nofun⟩
              exact .leaf at_end
            · exact .done q_finished node
        · have at_next : Reading law layout own pp.isamb.view pp.scope
              { pp with isamb, block := block' } (xs' ++ items') blocks' (!xs'.isEmpty) :=
            ⟨sound', view', rfl, .leaf at_leaf, le'⟩
          have unread_le := Bool.toNat_le (!xs'.isEmpty)
          obtain ⟨pp', blocks'', unread', run, reading'⟩ := ih at_next (by
            simp only [isEmpty_nil, Bool.not_true, Bool.toNat_false] at enough
            omega)
          rw [nil_append, items_eq, forwarded_append fails]
          refine ⟨pp', blocks'', unread', ?_, reading'⟩
          simp only [forwardFrom, block, if_pos finished, entered, bind, Except.bind, if_true, run]
      · -- items of the leaf are left
        have size := law.two_mul_le_codes prev_valid valid
        have length_pos := length_pos_of_ne_nil read
        have unfinished : p.offset ≠ p.bytes.length := by
          rw [Ne, offset_eq_iff offset_le, src, ← length_eq_zero_iff]
          omega
        have src_le : p.src.length ≤ p.bytes.length := by
          rw [Block.src, length_drop]
          exact Nat.sub_le _ _
        rw [src] at src_le
        rcases forwardLeaf_spec (m := m) pp.scope untilb prev_valid valid
            read (show _ ≤ p.bytes.length by omega) with
          ⟨skipped, x, rest, rfl, fails, pass, run⟩ | ⟨last, mem, fails, run⟩
        · have x_prev : ∀ y ∈ some x, law.Valid y := by
            rintro _ ⟨⟩
            exact valid x (by simp)
          have rest_valid : ∀ y ∈ rest, law.Valid y := fun y mem => valid y (by simp [mem])
          obtain ⟨seek_src, seek_le⟩ := src_seek (p := p)
            (law.codes prev skipped ++ law.piece (lastItem prev skipped) x)
            (law.codes (some x) rest) (by
              rw [src, law.codes_append, law.codes_cons, append_assoc])
          have left : forwarded m pp.scope untilb (skipped ++ x :: rest ++ items) =
              x :: (rest ++ items) := by
            rw [append_assoc, forwarded_append fails, cons_append, forwarded_cons pass]
          rw [left]
          let q : Block Code :=
            { p.seek (law.codes (some x) rest) with decodeClientData := law.state (some x) }
          refine ⟨{ pp with block := q :: stack }, blocks, !rest.isEmpty, ?_, sound, rfl, rfl,
            .leaf ⟨⟨q, stack, some x, rfl, leaf, seek_src, seek_le, rfl, x_prev, path⟩,
              rest_valid⟩, le⟩
          simp only [forwardFrom, block, if_neg unfinished, leaf, if_true, src, code, run]
          rfl
        · have last_prev : ∀ y ∈ some last, law.Valid y := by
            rintro _ ⟨⟩
            exact valid last mem
          obtain ⟨seek_src, seek_le⟩ := src_seek (p := p) p.src []
            (append_nil _).symm
          have at_end : Reading law layout own pp.isamb.view pp.scope
              { pp with
                block := { p.seek [] with decodeClientData := law.state (some last) } :: stack }
              ([] ++ items) blocks (!([] : List Item).isEmpty) :=
            ⟨sound, rfl, rfl, .leaf ⟨⟨_, stack, some last, rfl, leaf, seek_src, seek_le, rfl,
              last_prev, path⟩, nofun⟩, le⟩
          have unread : (!xs.isEmpty) = true := by simp [read]
          rw [unread] at enough
          obtain ⟨pp', blocks', unread', rest_run, reading'⟩ := ih at_end (by
            simp only [isEmpty_nil, Bool.not_true, Bool.toNat_false, Bool.toNat_true]
              at enough ⊢
            omega)
          rw [forwarded_append fails]
          refine ⟨pp', blocks', unread', ?_, reading'⟩
          simp only [forwardFrom, block, if_neg unfinished, leaf, if_true, src, code, run]
          exact rest_run

theorem ppOpenX_spec {b : Isamb} {t : Tree Item h} (sound : Sound layout b own)
    (le : t.blocks ≤ own)
    (settled : t.Settled law layout b.view) (scope : Int) :
    ∃ pp blocks unread, ppOpenX m b t.pos scope = .ok pp ∧
      Reading law layout own b.view scope pp t.items blocks unread := by
  have deep : h < b.maxLevels := by
    have levels := t.lt_card_blocks
    have le_card := card_le_card le
    have card := sound.card_lt
    omega
  have all_le : t.blocks + 0 ≤ own := (add_zero _).trans_le le
  obtain ⟨block, isamb, xs, items, blocks, skipped, run, sound', view_eq, at_leaf, items_eq, fails,
    blocks_le, -⟩ := enter_spec (m := m) scope graded_none deep sound all_le
      settled.formed settled.stored .top
  obtain rfl : skipped = [] := by
    cases skipped with
    | nil => rfl
    | cons x skipped => cases fails x mem_cons_self
  rw [append_nil, nil_append] at items_eq
  refine ⟨{ isamb, block, scope }, blocks, !xs.isEmpty, ?_, sound', view_eq, rfl, ?_,
    blocks_le.trans all_le⟩
  · simp only [ppOpenX, run, bind, Except.bind]
  · rw [items_eq]
    exact .leaf at_leaf

theorem ppForward_spec (graded : Graded law untilb) {items : List Item} {blocks : Multiset Nat}
    (reading : Reading law layout own view scope pp items blocks unread) :
    ∃ pp' blocks' unread', ppForward m pp untilb =
        .ok ((forwarded m scope untilb items).head?, pp') ∧
      Reading law layout own view scope pp'
        (forwarded m scope untilb items).tail blocks' unread' := by
  refine forwardFrom_spec graded reading ?_
  have le_card := card_le_card reading.le
  have card := reading.sound.card_lt
  have unread_le := Bool.toNat_le unread
  omega

/-- What several calls return on a cursor that has `items` to read. -/
def skimmed (m : IsamcM Item Code) (scope : Int) : List Item → List (Option Item) →
    List (Option Item)
  | _, [] => []
  | items, untilb :: calls =>
    (forwarded m scope untilb items).head? ::
      skimmed m scope (forwarded m scope untilb items).tail calls

/-- Whether an item is strictly after the last one returned, if any. -/
def behind (last : Option Item) (x : Item) : Bool :=
  match last with
  | none => true
  | some y => decide (y < x)

/-- What several calls return by the order of the items: each the first one that passes of those
strictly after the item returned last.  With `final`, nothing is returned any more once a call has
returned nothing. -/
def returned (m : IsamcM Item Code) (scope : Int) (final : Bool) (items : List Item) :
    Option Item → Bool → List (Option Item) → List (Option Item)
  | _, _, [] => []
  | last, ended, untilb :: calls =>
    let item :=
      if ended then none else items.find? fun x => behind last x && passes m scope untilb x
    item :: returned m scope final items (item.or last) (ended || (final && item.isNone)) calls

/-- In a sorted list the items behind one that is reached are those strictly after it. -/
theorem forwarded_tail {items rest : List Item} {x : Item} (sorted : items.Pairwise (· < ·))
    (left : forwarded m scope untilb items = x :: rest) :
    rest = items.filter fun y => decide (x < y) := by
  obtain ⟨front, split⟩ := dropWhile_suffix (l := items) fun x => !passes m scope untilb x
  change front ++ forwarded m scope untilb items = items at split
  rw [left] at split
  rw [← split] at sorted ⊢
  obtain ⟨-, behind, apart⟩ := pairwise_append.mp sorted
  have front_none : front.filter (fun y => decide (x < y)) = [] :=
    filter_eq_nil_iff.mpr fun y mem => by
      simpa using (apart y mem x mem_cons_self).le
  have rest_all : rest.filter (fun y => decide (x < y)) = rest :=
    filter_eq_self.mpr fun y mem => by
      simpa using (pairwise_cons.mp behind).1 y mem
  rw [filter_append, front_none, filter_cons_of_neg (by simp), rest_all, nil_append]

variable (m scope) in
/-- Dropping what has been read is going on behind the item returned last. -/
theorem skimmed_eq_returned {items left : List Item} {last : Option Item} (ended : Bool)
    (sorted : items.Pairwise (· < ·)) (calls : List (Option Item))
    (left_eq : left = if ended then [] else items.filter (behind last)) :
    skimmed m scope left calls = returned m scope true items last ended calls := by
  induction calls generalizing left last ended with
  | nil => rfl
  | cons untilb calls ih =>
    rw [skimmed, returned]
    cases ended with
    | true =>
      obtain rfl : left = [] := left_eq
      exact congrArg (none :: ·) (ih true rfl)
    | false =>
      obtain rfl : left = items.filter (behind last) := left_eq
      have head : (forwarded m scope untilb (items.filter (behind last))).head? =
          items.find? fun x => behind last x && passes m scope untilb x := by
        rw [forwarded, ← find?_eq_head?_dropWhile_not, find?_filter]
        simp only [Bool.decide_and, Bool.decide_eq_true]
      simp only [Bool.false_eq_true, if_false, ← head, Bool.false_or, Bool.true_and]
      refine congrArg _ (ih _ ?_)
      have left_sorted := sorted.filter (behind last)
      cases front : forwarded m scope untilb (items.filter (behind last)) with
      | nil => rfl
      | cons x rest =>
        have x_mem : x ∈ items.filter (behind last) := by
          have reached : x ∈ forwarded m scope untilb (items.filter (behind last)) :=
            front ▸ mem_cons_self
          exact dropWhile_subset _ reached
        have x_after : behind last x = true := (mem_filter.mp x_mem).2
        rw [tail_cons, forwarded_tail left_sorted front, filter_filter]
        refine filter_congr fun y _ => ?_
        change (decide (x < y) && behind last y) = decide (x < y)
        cases last with
        | none => exact Bool.and_true _
        | some z =>
          by_cases after : x < y
          · have z_lt : z < x := of_decide_eq_true x_after
            simp [behind, after, z_lt.trans after]
          · simp [after]

theorem ppCalls_spec {calls : List (Option Item)} (graded : ∀ untilb ∈ calls, Graded law untilb)
    {items : List Item} {blocks : Multiset Nat}
    (reading : Reading law layout own view scope pp items blocks unread) :
    ∃ pp', ppCalls m pp calls = .ok (skimmed m scope items calls, pp') := by
  induction calls generalizing pp items blocks unread with
  | nil => exact ⟨pp, rfl⟩
  | cons untilb calls ih =>
    obtain ⟨pp₁, blocks₁, unread₁, run, reading₁⟩ :=
      ppForward_spec (m := m) (graded untilb mem_cons_self) reading
    obtain ⟨pp₂, run₂⟩ :=
      ih (fun other mem => graded other (mem_cons_of_mem untilb mem)) reading₁
    refine ⟨pp₂, ?_⟩
    simp only [ppCalls, run, run₂, bind, Except.bind, skimmed]

/-- Repeat `isamb_pp_read` until an item passes, at most `fuel` times. -/
def readUntil (m : IsamcM Item Code) (untilb : Option Item) :
    Nat → PP Code → Except Fault (Option Item × PP Code)
  | 0, _ => .error .assertion
  | fuel + 1, pp => do
      let (item, pp) ← ppRead m pp
      match item with
      | none => .ok (none, pp)
      | some item =>
        if passes m pp.scope untilb item then .ok (some item, pp) else readUntil m untilb fuel pp

/-- `ppCalls` with every call replaced by repeated reading. -/
def readCalls (m : IsamcM Item Code) (fuel : Nat) :
    PP Code → List (Option Item) → Except Fault (List (Option Item) × PP Code)
  | pp, [] => .ok ([], pp)
  | pp, untilb :: calls => do
      let (item, pp) ← readUntil m untilb fuel pp
      let (items, pp) ← readCalls m fuel pp calls
      .ok (item :: items, pp)

omit [LinearOrder Item] in
theorem forwarded_none (items : List Item) : forwarded m scope none items = items := by
  cases items with
  | nil => rfl
  | cons x items => exact forwarded_cons rfl

variable (untilb) in
theorem readUntil_spec {fuel : Nat} {items : List Item} {blocks : Multiset Nat}
    (reading : Reading law layout own view scope pp items blocks unread)
    (enough : items.length < fuel) :
    ∃ pp' blocks' unread', readUntil m untilb fuel pp =
        .ok ((forwarded m scope untilb items).head?, pp') ∧
      Reading law layout own view scope pp'
        (forwarded m scope untilb items).tail blocks' unread' := by
  induction fuel generalizing pp items blocks unread with
  | zero => cases enough
  | succ fuel ih =>
    obtain ⟨pp₁, blocks₁, unread₁, run, reading₁⟩ :=
      ppForward_spec (m := m) graded_none reading
    rw [forwarded_none] at run reading₁
    cases items with
    | nil =>
      refine ⟨pp₁, blocks₁, unread₁, ?_, reading₁⟩
      simp only [readUntil, ppRead, run, bind, Except.bind, head?_nil]
      rfl
    | cons x items =>
      rw [head?_cons] at run
      cases pass : passes m scope untilb x with
      | true =>
        rw [forwarded_cons pass]
        refine ⟨pp₁, blocks₁, unread₁, ?_, reading₁⟩
        simp only [readUntil, ppRead, run, bind, Except.bind, reading₁.scope_eq, pass, if_true,
          head?_cons]
      | false =>
        have dropped : forwarded m scope untilb (x :: items) = forwarded m scope untilb items :=
          forwarded_append (fun y (mem : y ∈ [x]) => mem_singleton.mp mem ▸ pass)
        obtain ⟨pp', blocks', unread', rest, reading'⟩ :=
          ih reading₁ (Nat.lt_of_succ_lt_succ enough)
        rw [dropped]
        refine ⟨pp', blocks', unread', ?_, reading'⟩
        simp only [readUntil, ppRead, run, bind, Except.bind, reading₁.scope_eq, pass,
          Bool.false_eq_true, if_false]
        exact rest

theorem readCalls_spec (calls : List (Option Item)) {fuel : Nat} {items : List Item}
    {blocks : Multiset Nat} (reading : Reading law layout own view scope pp items blocks unread)
    (enough : items.length < fuel) :
    ∃ pp', readCalls m fuel pp calls = .ok (skimmed m scope items calls, pp') := by
  induction calls generalizing pp items blocks unread with
  | nil => exact ⟨pp, rfl⟩
  | cons untilb calls ih =>
    obtain ⟨pp₁, blocks₁, unread₁, run, reading₁⟩ :=
      readUntil_spec (m := m) untilb reading enough
    have shorter : (forwarded m scope untilb items).tail.length < fuel := by
      have sublist := (tail_sublist _).trans
        (dropWhile_sublist (l := items) fun x => !passes m scope untilb x)
      exact sublist.length_le.trans_lt enough
    obtain ⟨pp₂, run₂⟩ := ih reading₁ shorter
    refine ⟨pp₂, ?_⟩
    simp only [readCalls, run, run₂, bind, Except.bind, skimmed]

theorem ppReadAll_spec {items : List Item} {blocks : Multiset Nat}
    (reading : Reading law layout own view scope pp items blocks unread) (fuel : Nat) :
    ppReadAll m fuel pp = if items.length < fuel then .ok items else .error .assertion := by
  induction fuel generalizing pp items blocks unread with
  | zero => rfl
  | succ fuel ih =>
    obtain ⟨pp₁, blocks₁, unread₁, run, reading₁⟩ :=
      ppForward_spec (m := m) graded_none reading
    rw [forwarded_none] at run reading₁
    have rest := ih reading₁
    cases items with
    | nil => simp [ppReadAll, ppRead, run, bind, Except.bind]
    | cons x items =>
      rw [tail_cons] at rest
      by_cases enough : items.length < fuel
      · rw [if_pos enough] at rest
        rw [length_cons, if_pos (Nat.add_lt_add_right enough 1)]
        simp only [ppReadAll, ppRead, run, bind, Except.bind, head?_cons, rest]
      · rw [if_neg enough] at rest
        rw [length_cons, if_neg (mt Nat.lt_of_add_lt_add_right enough)]
        simp only [ppReadAll, ppRead, run, bind, Except.bind, head?_cons, rest]

theorem reads_iff {b : Isamb} {list : IsamList Item} {frame : Multiset Nat}
    (sound : Sound layout b (frame + list.blocks)) (settled : list.Settled law layout b.view)
    (scope : Int) (items : List Item) : Reads m scope b list.pos items ↔ items = list.items := by
  cases list with
  | empty =>
    constructor
    · rintro (⟨-, rfl⟩ | ⟨pp, fuel, ne, -⟩)
      · rfl
      · exact absurd rfl ne
    · exact fun same => .inl ⟨rfl, same⟩
  | tree t =>
    have pos_ne : t.pos ≠ 0 :=
      sound.ne_zero (mem_add.mpr (.inr t.pos_mem_blocks))
    obtain ⟨pp, blocks, unread, opened, reading⟩ :=
      ppOpenX_spec (m := m) sound (Multiset.le_add_left _ _) settled scope
    constructor
    · rintro (⟨zero, -⟩ | ⟨pp', fuel, -, opened', read⟩)
      · exact absurd zero pos_ne
      · have same : pp' = pp := by
          have both := opened'.symm.trans opened
          injection both
        rw [same, ppReadAll_spec reading] at read
        split at read
        · injection read with items_eq
          exact items_eq.symm
        · cases read
    · rintro rfl
      refine .inr ⟨pp, t.items.length + 1, pos_ne, opened, ?_⟩
      rw [ppReadAll_spec reading, if_pos (Nat.lt_succ_self _)]
      rfl

end Zebra.Isamb
