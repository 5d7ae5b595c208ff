import Mathlib.Algebra.BigOperators.Ring.Finset
import Zebra.Isamb.InsertInt

/-!
# `insert_sub`

The contract of a descent holds at every depth.  Counters stay exact as long as no node is split
whose first half holds the changed child: `staleSub` tells whether that happens on the way back.
-/

namespace Zebra.Isamb

open List Spine

section

variable {Item Code : Type} (m : IsamcM Item Code)

/-- Whether `joinChild` splits the node and counts the child's items by what its block held before
the change. -/
def staleJoin (p : Block Code) (src : List Byte) (child : Block Code) (r : Descent Item Code) :
    Bool :=
  match r.sp with
  | none => false
  | some (sub2, item) =>
    let behind := (m.encode m.reset item).2 ++ (encodePtr sub2.pos ++ src)
    let dst := p.bytes.take (p.bytes.length - src.length) ++ behind
    let blockSize := (r.b.file p.cat).head.blockSize
    let rest := do
      let (_, src) ← decodePtr dst
      halfRest m (blockSize / 2) dst.length blockSize src
    decide (r.b.blockMax p.cat < dst.length ∧ r.p.noItems ≠ child.noItems) &&
      rest.any fun rest => decide (rest.length ≤ behind.length)

/-- Whether a stale counter is read on the way back from a child. -/
def staleInt
    (sub : Isamb → Block Code → Stream Item → Option Item → Except Fault (Descent Item Code))
    (stale : Isamb → Block Code → Stream Item → Option Item → Bool)
    (b : Isamb) (p : Block Code) (stream : Stream Item) (lastMax : Option Item) : Bool :=
  match decodePtr p.bytes with
  | none => false
  | some (pos, src) =>
    match findChild m stream.item lastMax (b.file p.cat).head.blockSize pos src with
    | none => false
    | some (pos, src, maxItem) =>
      match openBlock m b pos with
      | .error _ => false
      | .ok (child, b) =>
        stale b child stream maxItem ||
          match sub b child stream maxItem with
          | .error _ => false
          | .ok r => staleJoin m p src child r

/-- Whether a stale counter is read in a descent, at most `fuel` levels deep. -/
def staleSub : Nat → Isamb → Block Code → Stream Item → Option Item → Bool
  | 0, _, _, _, _ => false
  | fuel + 1, b, p, stream, maxItem =>
    if p.leaf then false
    else staleInt m (insertSub m fuel) (staleSub fuel) b p stream maxItem

end

variable {Item Code : Type} [LinearOrder Item] {m : IsamcM Item Code} {law : LawfulIsamc m}
  {layout : Layout} {b : Isamb} {frame own : Multiset Nat} {low high : Option Item} {h : Nat}

section

omit [LinearOrder Item] in
theorem Tree.Exact.count_eq {t : Tree Item h} (exact : t.Exact) : t.count = t.items.length := by
  cases h with
  | zero => rfl
  | succ h => exact exact.1

/-- The counter of a block in memory is that of its tree. -/
theorem Held.noItems_eq {view : Nat → Option DiskBlock} {p : Block Code} {t : Tree Item h}
    (held : Held law view p t) (exact : t.Exact) : p.noItems = t.items.length := by
  rcases held.count with ⟨-, count⟩ | ⟨-, noItems, -⟩
  · rw [← count, exact.count_eq]
  · rw [noItems, exact.count_eq, readBack_natCast]

theorem plug_front {Kid : Type} (pos : Kid → Nat) {left l : List (Kid × Item)} {kid k : Kid}
    {sep cut : Item} {behind rest : Spine Item Kid}
    (same : plug left (.cons kid sep behind) = plug l (.cons k cut rest))
    (more : (law.piece none sep ++ behind.bytes law pos).length <
      (law.piece none cut ++ rest.bytes law pos).length) :
    ∀ side ∈ l.map Prod.fst ++ [k], side ∈ left.map Prod.fst := by
  induction left generalizing l with
  | nil =>
    have whole := congrArg (fun spine => (tailBytes law pos spine).length) same
    cases l with
    | nil =>
      simp only [plug, tailBytes] at whole
      omega
    | cons entry l =>
      simp only [plug, tailBytes, bytes_plug, bytes,
        length_append] at whole more
      omega
  | cons entry left ih =>
    cases l with
    | nil =>
      injection same with first
      simp [first]
    | cons entry' l =>
      injection same with first _ tail
      intro side mem
      rw [map_cons, cons_append, mem_cons] at mem
      rcases mem with rfl | mem
      · simp [first]
      · exact mem_cons_of_mem _ (ih tail side mem)

namespace Routed

variable {stream : Stream Item} {t : Tree Item (h + 1)} {p child : Block Code}
  {left : List (Tree Item h × Item)} {kid t' : Tree Item h}
  {right : Option (Item × Spine Item (Tree Item h))} {r : Descent Item Code}
  {sp : Option (Item × Tree Item h)} {done todo : List (Item × Nat)}

variable (routed : Routed law layout frame low high b stream t p left kid right child r t' sp done
  todo)

include routed

theorem side_pos_ne {side : Tree Item h} (mem : side ∈ left.map Prod.fst ∨ side ∈ rightKids right) :
    side.pos ≠ kid.pos := by
  intro same
  have outside : side.pos ∈ around frame t.pos left right := mem_around mem side.pos_mem_blocks
  have inside : side.pos ∈ t'.blocks + spBlocks sp :=
    Multiset.mem_add.mpr (.inl (same ▸ routed.pos ▸ t'.pos_mem_blocks))
  exact Multiset.disjoint_left.mp (Multiset.nodup_add.mp routed.sound_grown.nodup).2.2 outside
    inside

theorem eq_of_pos {side : Tree Item h} (mem : side ∈ (newKids left t' sp right).toList)
    (same : side.pos = kid.pos) : side = t' := by
  rw [toList_plug, toList_headed, mem_append, mem_cons] at mem
  rcases mem with mem | rfl | mem
  · exact absurd same (routed.side_pos_ne (.inl mem))
  · rfl
  · rcases sp with _ | ⟨sep, sibling⟩
    · exact absurd same (routed.side_pos_ne (.inr mem))
    · simp only [spRight, rightKids, toList_headed, mem_cons] at mem
      rcases mem with rfl | mem
      · have nodup := (Multiset.nodup_add.mp routed.sound_grown.nodup).2.1
        have at_kid : side.pos ∈ t'.blocks := same ▸ routed.pos ▸ t'.pos_mem_blocks
        exact absurd side.pos_mem_blocks
          (Multiset.disjoint_left.mp (Multiset.nodup_add.mp nodup).2.2 at_kid)
      · exact absurd same (routed.side_pos_ne (.inr mem))

/-- The first half is counted right unless the changed child is in it with a new counter. -/
theorem firstCount_eq {l : List (Tree Item h × Item)} {k : Tree Item h} {cut : Item}
    {rest : Spine Item (Tree Item h)} (exact : t.Exact) (t'_exact : t'.Exact)
    (sibling_exact : ∀ sep s, sp = some (sep, s) → s.Exact)
    (kids_eq : newKids left t' sp right = .plug l (.cons k cut rest))
    (fresh : r.p.noItems = child.noItems ∨ ∀ side ∈ l.map Prod.fst ++ [k],
      side ∈ left.map Prod.fst) :
    firstCount kid l k = (kidsItems (plug l (.last k)).toList).length := by
  have kid_exact : kid.Exact := by
    refine exact.2 kid ?_
    rw [routed.kids, toList_plug, toList_headed]
    simp
  have new_exact := routed.new_exact exact t'_exact sibling_exact
  have each : ∀ side ∈ l.map Prod.fst ++ [k],
      (readBack (diskCount kid side) : Int) = (side.items.length : Int) := by
    intro side mem
    have in_kids : side ∈ (newKids left t' sp right).toList := by
      rw [kids_eq, toList_plug, toList, mem_append, mem_cons]
      simp only [mem_append, mem_singleton] at mem
      tauto
    by_cases same : side.pos = kid.pos
    · rcases fresh with fresh | front
      · have at_kid := routed.eq_of_pos in_kids same
        have held_count := routed.grown.held.noItems_eq t'_exact
        rw [diskCount, if_pos same, ← routed.noItems, ← fresh, held_count, at_kid]
      · exact absurd same (routed.side_pos_ne (.inl (front side mem)))
    · rw [diskCount, if_neg same, (new_exact side in_kids).count_eq, readBack_natCast]
  rw [firstCount, map_congr_left each, kidsItems, toList_plug, toList,
    length_flatMap, Nat.cast_list_sum, map_map]
  rfl

/-- Where no stale counter is read, the changed child has its old counter or is in the second
half. -/
theorem fresh_cases {p2 : Block Code} {sep : Item} {sibling : Tree Item h}
    {l : List (Tree Item h × Item)} {k : Tree Item h} {cut : Item}
    {rest : Spine Item (Tree Item h)} (split : r.sp = some (p2, sep))
    (sp_eq : sp = some (sep, sibling)) (p2_pos : p2.pos = sibling.pos)
    (overfull : 4 * layout.quater < ((newKids left t' sp right).bytes law Tree.pos).length)
    (kids_eq : newKids left t' sp right = .plug l (.cons k cut rest))
    (rest_run : halfRest m (2 * layout.quater + 4)
      ((newKids left t' sp right).bytes law Tree.pos).length (4 * layout.quater + 8)
      ((newKids left t' sp right).tailBytes law Tree.pos) =
        some (law.piece none cut ++ rest.bytes law Tree.pos))
    (fresh : staleJoin m p (rightBytes law Tree.pos right) child r = false) :
    r.p.noItems = child.noItems ∨ ∀ side ∈ l.map Prod.fst ++ [k], side ∈ left.map Prod.fst := by
  subst sp_eq
  have sound := routed.sound_grown
  have size : (r.b.file p.cat).head.blockSize = 4 * layout.quater + 8 := by
    rw [routed.p_cat, sound.blockSize _ layout.btree_lt, layout.size_btree_eq]
  have half : (4 * layout.quater + 8) / 2 = 2 * layout.quater + 4 := by omega
  have room : r.b.blockMax p.cat = 4 * layout.quater := by
    rw [routed.p_cat, sound.blockMax _ layout.btree_lt, layout.room_btree]
  have behind : (m.encode m.reset sep).2 ++
      (encodePtr sibling.pos ++ rightBytes law Tree.pos right) =
        law.piece none sep ++ (headed sibling right).bytes law Tree.pos := by
    rw [bytes_headed]
    rfl
  have new_bytes := routed.new_bytes sep sibling
  rw [behind] at new_bytes
  simp only [staleJoin, split, p2_pos, behind, new_bytes, size, half, room, decodePtr_bytes,
    Option.bind_eq_bind, Option.bind_some, rest_run, Option.any_some, overfull, true_and,
    Bool.and_eq_false_iff, decide_eq_false_iff_not, not_not] at fresh
  rcases fresh with same | more
  · exact .inl same
  · exact .inr (plug_front Tree.pos kids_eq (Nat.lt_of_not_le more))

end Routed

end

/-- The contract of `insert_sub` on trees of depth `h`. -/
def DescentSpec (law : LawfulIsamc m) (layout : Layout) (h : Nat)
    (sub : Isamb → Block Code → Stream Item → Option Item → Except Fault (Descent Item Code))
    (stale : Isamb → Block Code → Stream Item → Option Item → Bool) : Prop :=
  ∀ (b : Isamb) (frame : Multiset Nat) (p : Block Code) (t : Tree Item h) (low high : Option Item)
    (stream : Stream Item), Sound layout b (frame + t.blocks) → Held law b.view p t →
    p.dirty = false → t.Formed law layout low high → Ready law low high stream t.items →
    (∀ u ∈ high, law.Valid u) →
    sub b p stream high = .error .exit ∨
      ∃ (r : Descent Item Code) (t' : Tree Item h) (sp : Option (Item × Tree Item h))
        (done todo : List (Item × Nat)), sub b p stream high = .ok r ∧
        Grown law layout frame low high b stream.all t.items p.noItems r t' sp done todo ∧
        (t.pos % catMax = layout.btree → t'.pos = t.pos ∧ r.b.view t.pos = b.view t.pos) ∧
        (t.Exact → stale b p stream high = false →
          t'.Exact ∧ ∀ sep s, sp = some (sep, s) → s.Exact)

/-- What the child that the lookahead belongs to may assume of the stream. -/
theorem Ready.child {stream : Stream Item} {t : Tree Item (h + 1)}
    {left : List (Tree Item h × Item)} {kid : Tree Item h}
    {right : Option (Item × Spine Item (Tree Item h))}
    (node : Tree.NodeFormed law layout Tree.pos (Tree.Formed law layout) low high t)
    (kids : Node.kids t = .plug left (.headed kid right))
      (ready : Ready law low high stream t.items)
    (above : Above (leftBound low left) stream.item)
    (below : Below (rightBound high right) stream.item) :
    Ready law (leftBound low left) (rightBound high right) stream kid.items := by
  refine ⟨ready.ops, fun x op x_below => ?_, above, below⟩
  have kid_ok (low high : Option Item) (kid : Tree Item h)
      (formed : kid.pos % catMax = layout.btree ∧ kid.Formed law layout low high) :
      InOrder law low high kid.items := formed.2.inOrder
  have formed := node.kids
  rw [kids] at formed
  obtain ⟨left_formed, kid_right⟩ := formed_plug.mp formed
  obtain ⟨-, right_formed⟩ := formed_headed.mp kid_right
  have x_above : Above (leftBound low left) x := by
    rcases mem_cons.mp op with first | later
    · have x_eq : x = stream.item := congrArg Prod.fst first
      exact x_eq ▸ above
    · have lt := (pairwise_cons.mp ready.ops.sorted).1 _ later
      exact fun u u_mem => (above u u_mem).trans lt.le
  have x_high : Below high x := by
    rcases right with _ | ⟨sep, rest⟩
    · exact x_below
    · exact right_formed.1.2.2.trans (below_some.mp x_below)
  have mem := ready.present x op x_high
  rw [items_around kids, mem_append, mem_append] at mem
  rcases mem with in_left | in_kid | in_right
  · exact absurd (left_formed.below kid_ok in_left x_above) (lt_irrefl x)
  · exact in_kid
  · exact absurd (right_formed.above kid_ok in_right x_below) (lt_irrefl x)

/-- `joinChild` keeps the contract. -/
theorem Routed.join [Suits law layout] {stream : Stream Item} {t : Tree Item (h + 1)}
    {p child : Block Code}
    {left : List (Tree Item h × Item)} {kid t' : Tree Item h}
    {right : Option (Item × Spine Item (Tree Item h))} {r : Descent Item Code}
    {sp : Option (Item × Tree Item h)} {done todo : List (Item × Nat)}
    (routed : Routed law layout frame low high b stream t p left kid right child r t' sp done todo)
    (clean : p.dirty = false) :
    joinChild m p (rightBytes law Tree.pos right) child r = .error .exit ∨
      ∃ (r' : Descent Item Code) (t₁ : Tree Item (h + 1)) (sp₁ : Option (Item × Tree Item (h + 1))),
        joinChild m p (rightBytes law Tree.pos right) child r = .ok r' ∧
        Grown law layout frame low high b stream.all t.items p.noItems r' t₁ sp₁ done todo ∧
        (t₁.pos = t.pos ∧ r'.b.view t.pos = b.view t.pos) ∧
        (t.Exact → t'.Exact → (∀ sep s, sp = some (sep, s) → s.Exact) →
          staleJoin m p (rightBytes law Tree.pos right) child r = false →
          t₁.Exact ∧ ∀ sep s, sp₁ = some (sep, s) → s.Exact) := by
  have node_exact {count : Int} (exact : t.Exact) (t'_exact : t'.Exact)
      (sibling_exact : ∀ sep s, sp = some (sep, s) → s.Exact)
      (count_eq : count = (kidsItems (newKids left t' sp right).toList).length) :
      (Tree.node t.pos count (newKids left t' sp right)).Exact :=
    ⟨count_eq, routed.new_exact exact t'_exact sibling_exact⟩
  cases unsplit : r.sp with
  | none =>
    obtain ⟨r', count, joined, grown, kept, count_eq⟩ := routed.join_same clean unsplit
    refine .inr ⟨r', _, _, joined, grown, ⟨rfl, kept⟩, ?_⟩
    intro exact t'_exact sibling_exact _
    exact ⟨node_exact exact t'_exact sibling_exact (count_eq exact), nofun⟩
  | some split =>
    obtain ⟨p2, sep⟩ := split
    obtain ⟨sibling, b₁, sp_eq, closed, sound₁, stored, held, p2_pos, same, child_block⟩ :=
      routed.close_sibling unsplit
    by_cases fits : ((newKids left t' sp right).bytes law Tree.pos).length ≤ 4 * layout.quater
    · obtain ⟨r', joined, grown, kept⟩ :=
        routed.join_fit unsplit sp_eq closed p2_pos sound₁ stored held same fits
      refine .inr ⟨r', _, _, joined, grown, ⟨rfl, kept⟩, ?_⟩
      intro exact t'_exact sibling_exact _
      refine ⟨node_exact exact t'_exact sibling_exact ?_, nofun⟩
      rw [routed.diff_eq, routed.held.noItems_eq exact]
      omega
    · have overfull := Nat.lt_of_not_le fits
      rcases routed.join_over unsplit sp_eq closed p2_pos sound₁ stored held same child_block
        overfull with full | ⟨r', l, k, cut, rest, at_pos, joined, kids_eq, rest_run, grown, kept⟩
      · exact .inl full
      refine .inr ⟨r', _, _, joined, grown, ⟨rfl, kept⟩, ?_⟩
      intro exact t'_exact sibling_exact fresh
      have first_eq := routed.firstCount_eq exact t'_exact sibling_exact kids_eq
        (routed.fresh_cases unsplit sp_eq p2_pos overfull kids_eq rest_run fresh)
      have new_exact := routed.new_exact exact t'_exact sibling_exact
      have kids_list : (newKids left t' sp right).toList =
          (plug l (.last k)).toList ++ rest.toList := by
        rw [kids_eq]
        simp [toList]
      rw [kids_list] at new_exact
      refine ⟨⟨first_eq, fun side mem => new_exact side (mem_append_left _ mem)⟩, ?_⟩
      rintro _ _ ⟨⟩
      refine ⟨?_, fun side mem => new_exact side (mem_append_right _ mem)⟩
      change p.noItems + _ - firstCount kid l k = ((kidsItems rest.toList).length : Int)
      rw [routed.diff_eq, routed.held.noItems_eq exact, first_eq, kids_list, kidsItems, kidsItems,
        kidsItems, flatMap_append, length_append]
      push_cast
      omega

/-- `insert_int` keeps the contract one level higher. -/
theorem insertInt_spec [Suits law layout]
    {sub : Isamb → Block Code → Stream Item → Option Item → Except Fault (Descent Item Code)}
    {stale : Isamb → Block Code → Stream Item → Option Item → Bool}
    (below_spec : DescentSpec law layout h sub stale) :
    DescentSpec law layout (h + 1) (insertInt m sub) (staleInt m sub stale) := by
  intro b frame p t low high stream sound held clean formed ready high_valid
  have node : Tree.NodeFormed law layout Tree.pos (Tree.Formed law layout) low high t := formed
  have bytes : p.bytes = (Node.kids t).bytes law Tree.pos := held.bytes
  have size : (b.file p.cat).head.blockSize = 4 * layout.quater + 8 := by
    have cat : p.cat = layout.btree := held.cat.trans node.cat
    rw [cat, sound.blockSize _ layout.btree_lt, layout.size_btree_eq]
  have enough : (Node.kids t).toList.length ≤ (b.file p.cat).head.blockSize := by
    have kids_le := (Node.kids t).length_le_bytes law Tree.pos
    have fits := node.fits
    rw [layout.room_btree] at fits
    omega
  obtain ⟨left, kid, right, kids, found, above, below⟩ :=
    findChild_spec Tree.pos node.kids (ready.ops.valid _ mem_cons_self) ready.above ready.below
      enough
  have kid_formed := node.kids
  rw [kids] at kid_formed
  obtain ⟨⟨kid_cat, kid_formed⟩, right_formed⟩ :=
    formed_headed.mp (formed_plug.mp kid_formed).2
  have kid_mem : kid ∈ (Node.kids t).toList := by
    rw [kids, toList_plug, toList_headed]
    simp
  have kid_stored : kid.Stored law b.view := held.kids kid kid_mem
  have around_sound := sound
  rw [blocks_around kids] at around_sound
  obtain ⟨child, b', opened, child_held, child_clean, noItems, view_eq, sound'⟩ :=
    openBlock_stored around_sound kid_stored
  have bound_valid : ∀ u ∈ rightBound high right, law.Valid u := by
    rcases right with _ | ⟨sep, rest⟩
    · exact high_valid
    · rintro u ⟨⟩
      exact right_formed.1.1
  have kid_ready := ready.child node kids above below
  have run : insertInt m sub b p stream high =
      (sub b' child stream (rightBound high right)).bind fun r =>
        joinChild m p (rightBytes law Tree.pos right) child r := by
    simp only [insertInt, bytes, decodePtr_bytes, found, opened, bind, Except.bind]
  rcases below_spec b' _ child kid _ _ stream sound' child_held child_clean kid_formed kid_ready
    bound_valid with full | ⟨r, t', sp, done, todo, sub_run, grown, kept, kid_exact⟩
  · left
    rw [run, full]
    rfl
  obtain ⟨pos_eq, unwritten⟩ := kept kid_cat
  have t_nodup : t.blocks.Nodup := (Multiset.nodup_add.mp sound.nodup).2.1
  have routed : Routed law layout frame low high b' stream t p left kid right child r t' sp done
      todo :=
    { sound := by rw [blocks_around kids]; exact sound'
      held := held.congr (fun pos _ => congrFun view_eq pos) t_nodup
      node, kids, noItems, ready := kid_ready, grown, pos := pos_eq, unwritten }
  rw [run, sub_run]
  rcases routed.join clean with full | ⟨r', t₁, sp₁, joined, grown', ⟨pos₁, view₁⟩, exact₁⟩
  · exact .inl full
  refine .inr ⟨r', t₁, sp₁, done, todo, joined, ?_, ?_, ?_⟩
  · exact { grown' with
      frame := fun pos mem => (grown'.frame pos mem).trans (congrFun view_eq pos) }
  · exact fun _ => ⟨pos₁, view₁.trans (congrFun view_eq t.pos)⟩
  · intro exact fresh
    simp only [staleInt, bytes, decodePtr_bytes, found, opened, sub_run, Bool.or_eq_false_iff]
      at fresh
    obtain ⟨t'_exact, sibling_exact⟩ := kid_exact (exact.2 kid kid_mem) fresh.1
    exact exact₁ exact t'_exact sibling_exact fresh.2

theorem insertLeaf_descent [Suits law layout] : DescentSpec law layout 0
    (fun b p stream high => insertLeaf m b (some p) stream high) (fun _ _ _ _ => false) := by
  intro b frame p t low high stream sound held clean formed ready high_valid
  have leaf : Tree.LeafFormed law layout low high t := formed
  have fits : (law.codes none t.items).length ≤ layout.room p.cat := by
    rw [held.cat]
    exact leaf.fits
  rcases insertLeaf_spec (.opened held clean fits) sound ⟨leaf.sorted, leaf.bounds⟩ ready
    high_valid with full | ⟨r, t', sp, done, todo, run, grown, stay⟩
  · exact .inl full
  · refine .inr ⟨r, t', sp, done, todo, run, grown, fun cat => ?_, fun _ _ =>
      ⟨trivial, fun _ _ _ => trivial⟩⟩
    have kept := stay p rfl (held.cat.trans cat)
    rwa [held.pos] at kept

/-- `insert_sub` keeps the contract on trees that are not deeper than its fuel. -/
theorem insertSub_spec [Suits law layout] {fuel : Nat} (enough : h < fuel) :
    DescentSpec law layout h (insertSub m fuel) (staleSub m fuel) := by
  induction h generalizing fuel with
  | zero =>
    intro b frame p t low high stream sound held clean formed ready high_valid
    have leaf : p.leaf = true := held.leaf
    have spec := insertLeaf_descent b frame p t low high stream sound held clean formed ready
      high_valid
    cases fuel with
    | zero => cases enough
    | succ fuel => simpa only [insertSub, staleSub, leaf, if_true] using spec
  | succ h ih =>
    intro b frame p t low high stream sound held clean formed ready high_valid
    have leaf : p.leaf = false := held.leaf
    cases fuel with
    | zero => cases enough
    | succ fuel =>
      have spec := insertInt_spec (ih (Nat.lt_of_succ_lt_succ enough)) b frame p t low high
        stream sound held clean formed ready high_valid
      simpa only [insertSub, staleSub, leaf, Bool.false_eq_true, if_false] using spec

end Zebra.Isamb
