import Zebra.Isamb.InsertLeaf

/-!
# `insert_int`

An internal node hands the stream to the child that the lookahead belongs to, takes in the child's
new sibling, and is split itself when it has become too large for its block.

When a node is split, `insert_int` reads the counters of the children in the first half from disk,
although the child that has just changed is still in memory.  `staleInt` tells when that matters.
-/

namespace Zebra.Isamb

open List Spine
open Multiset (mem_add nodup_add mem_of_le)

variable {Item Code : Type} [LinearOrder Item] {m : IsamcM Item Code} {law : LawfulIsamc m}
  {layout : Layout} {b : Isamb} {frame own : Multiset Nat} {low high : Option Item}

section

variable {Kid : Type} {P : Option Item → Option Item → Kid → Prop}
variable {spine : Spine Item Kid}

/-- The search for a child finds the one whose bounds the lookahead is between. -/
theorem findChild_spec (pos : Kid → Nat)
    (formed : spine.Formed law.Valid P low high) {x : Item} (x_valid : law.Valid x)
    (above : Above low x) (below : Below high x) {fuel : Nat}
    (enough : spine.toList.length ≤ fuel) :
    ∃ left kid right, spine = .plug left (.headed kid right) ∧
      findChild m x high fuel (pos spine.head) (spine.tailBytes law pos) =
        some (pos kid, rightBytes law pos right, rightBound high right) ∧
      Above (leftBound low left) x ∧ Below (rightBound high right) x := by
  induction spine generalizing low fuel with
  | last kid =>
    obtain ⟨fuel, rfl⟩ := Nat.exists_eq_add_of_le' enough
    exact ⟨[], kid, none, rfl, rfl, above, below⟩
  | cons kid sep rest ih =>
    obtain ⟨⟨valid, -, -⟩, -, rest_formed⟩ := formed
    obtain ⟨fuel, rfl⟩ := Nat.exists_eq_add_of_le' (Nat.one_le_of_lt enough)
    have nonempty := separator_ne_nil valid (rest.bytes law pos)
    have sign := law.compare_pos sep x valid x_valid
    have search : findChild m x high (fuel + 1) (pos kid)
          (law.piece none sep ++ rest.bytes law pos) =
        if 0 < m.compareItem sep x then
          some (pos kid, law.piece none sep ++ rest.bytes law pos, some sep)
        else findChild m x high fuel (pos rest.head) (rest.tailBytes law pos) := by
      simp only [findChild, if_neg nonempty, decodeEntry_bytes valid, Option.bind_eq_bind,
        Option.bind_some]
    by_cases less : x < sep
    · refine ⟨[], kid, some (sep, rest), rfl, ?_, above, below_some.mpr less⟩
      exact search.trans (if_pos (sign.mpr less))
    · obtain ⟨left, kid', right, rest_eq, found, above', below'⟩ :=
        ih rest_formed (above_some.mpr (le_of_not_gt less)) (Nat.le_of_succ_le_succ enough)
      refine ⟨(kid, sep) :: left, kid', right, by rw [rest_eq]; rfl, ?_, above', below'⟩
      exact (search.trans (if_neg (mt sign.mp less))).trans found

omit [LinearOrder Item] in
theorem countOf_spec (sound : Sound layout b own) {pos : Nat} (mem : pos ∈ own) {leaf : Bool}
    {count : Int} {bytes : List Byte}
    (block : b.view pos = some (.used leaf (encodePtr count) bytes)) :
    ∃ b', countOf m b pos = .ok ((readBack count : Int), b') ∧ Sound layout b' own ∧
      b'.view = b.view := by
  obtain ⟨b', opened, sound', view_eq⟩ := openBlock_spec (m := m) sound mem block
  refine ⟨b', ?_, sound', view_eq⟩
  rw [countOf, if_pos sound.intCount, opened]
  simp only [bind, Except.bind]
  rw [closeBlock_clean (by rfl) (by rfl)]

/-- What is left behind the first half of a node's bytes. -/
def halfRest (m : IsamcM Item Code) (half size : Nat) : Nat → List Byte → Option (List Byte)
  | 0, _ => none
  | fuel + 1, src =>
    if half < size - src.length then some src
    else do
      let (_, _, rest) ← decodeEntry m src
      halfRest m half size fuel rest

/-- The first half of a node's children ends soon behind half a block. -/
theorem firstHalf_spec (pos : Kid → Nat) (count : Kid → Int) (half size fuel : Nat)
    (sound : Sound layout b own)
    (formed : spine.Formed law.Valid P low high)
    (on_disk : ∀ kid ∈ spine.toList, pos kid ∈ own ∧ ∃ leaf bytes,
      b.view (pos kid) = some (.used leaf (encodePtr (count kid)) bytes))
    (enough : spine.toList.length ≤ fuel) (size_gt : half + (law.codeMax + 9) < size)
    (start : size - (spine.tailBytes law pos).length ≤ half + (law.codeMax + 9)) (before : Int) :
    ∃ left kid sep rest b', spine = .plug left (.cons kid sep rest) ∧
      firstHalf m half size fuel b (spine.tailBytes law pos)
        (before + readBack (count spine.head)) =
        .ok (law.piece none sep ++ rest.bytes law pos,
          before + ((left.map Prod.fst ++ [kid]).map fun kid => (readBack (count kid) : Int)).sum,
          b') ∧
      halfRest m half size fuel (spine.tailBytes law pos) =
        some (law.piece none sep ++ rest.bytes law pos) ∧
      half < size - (law.piece none sep ++ rest.bytes law pos).length ∧
      size - (law.piece none sep ++ rest.bytes law pos).length ≤ half + (law.codeMax + 9) ∧
      Sound layout b' own ∧ b'.view = b.view := by
  induction spine generalizing low fuel before b with
  | last kid =>
    change size - 0 ≤ half + (law.codeMax + 9) at start
    omega
  | cons kid sep rest ih =>
    obtain ⟨⟨valid, -, -⟩, -, rest_formed⟩ := formed
    obtain ⟨fuel, rfl⟩ := Nat.exists_eq_add_of_le' (Nat.one_le_of_lt enough)
    change size - (law.piece none sep ++ rest.bytes law pos).length ≤ half +
      (law.codeMax + 9) at start
    change ∃ left kid' sep' rest' b', _ ∧ firstHalf m half size (fuel + 1) b
      (law.piece none sep ++ rest.bytes law pos) _ = _ ∧ halfRest m half size (fuel + 1)
      (law.piece none sep ++ rest.bytes law pos) = _ ∧ _
    by_cases stop : half < size - (law.piece none sep ++ rest.bytes law pos).length
    · refine ⟨[], kid, sep, rest, b, rfl, ?_, ?_, stop, start, sound, rfl⟩
      · rw [firstHalf, if_pos stop]
        simp [Spine.head]
      · rw [halfRest, if_pos stop]
    · have head_mem : rest.head ∈ (cons kid sep rest).toList :=
        mem_cons_of_mem kid rest.head_mem
      obtain ⟨own_mem, leaf, bytes, block⟩ := on_disk rest.head head_mem
      obtain ⟨b₁, counted, sound₁, view₁⟩ := countOf_spec (m := m) sound own_mem block
      have entry_le : (law.piece none sep).length + (encodePtr (pos rest.head)).length ≤
          law.codeMax + 9 := by
        have item_le := law.piece_le law.valid_none valid
        have pointer_le := encodePtr_length_le (sound.lt_two_pow own_mem)
        omega
      have lengths : (law.piece none sep ++ rest.bytes law pos).length =
          (law.piece none sep).length + (encodePtr (pos rest.head)).length +
            (rest.tailBytes law pos).length := by
        rw [rest.bytes_eq, length_append, length_append, Nat.add_assoc]
      obtain ⟨left, kid', sep', rest', b', rest_eq, run, rest_run, gt, le, sound', view'⟩ :=
        ih fuel sound₁ rest_formed
          (fun kid' mem => view₁ ▸ on_disk kid' (mem_cons_of_mem kid mem))
          (Nat.le_of_succ_le_succ enough) (by omega) (before + readBack (count kid))
      refine ⟨(kid, sep) :: left, kid', sep', rest', b', by rw [rest_eq]; rfl, ?_, ?_, gt, le,
        sound', view'.trans view₁⟩
      · rw [firstHalf, if_neg stop, decodeEntry_bytes valid]
        simp only [bind, Except.bind, counted]
        rw [Spine.head, run]
        simp [add_assoc]
      · rw [halfRest, if_neg stop, decodeEntry_bytes valid]
        exact rest_run

/-- Splitting a node that has outgrown its block: both halves fit. -/
theorem splitInt_spec [suits : Suits law layout] (pos : Kid → Nat) (count : Kid → Int)
    {p : Block Code} (sound : Sound layout b own) (cat : p.cat = layout.btree)
    (formed : spine.Formed law.Valid P low high)
    (on_disk : ∀ kid ∈ spine.toList, pos kid ∈ own ∧ ∃ leaf bytes,
      b.view (pos kid) = some (.used leaf (encodePtr (count kid)) bytes))
    (enough : spine.toList.length ≤ 4 * layout.quater + 8)
    (overfull : 4 * layout.quater < (spine.bytes law pos).length)
    (over_le : (spine.bytes law pos).length ≤ 4 * layout.quater + (law.codeMax + 9)) :
    splitInt m b p (spine.bytes law pos) = .error .exit ∨
      ∃ left kid sep rest at_pos b', spine = .plug left (.cons kid sep rest) ∧
        splitInt m b p (spine.bytes law pos) =
          .ok ({ p with
                  bytes := (plug left (.last kid)).bytes law pos
                  noItems := ((left.map Prod.fst ++ [kid]).map fun kid =>
                    (readBack (count kid) : Int)).sum
                  dirty := true },
            ({ pos := at_pos, cat := p.cat, leaf := false, dirty := true, deleted := false,
               offset := 0
               noItems := p.noItems - ((left.map Prod.fst ++ [kid]).map fun kid =>
                 (readBack (count kid) : Int)).sum
               bytes := rest.bytes law pos, decodeClientData := m.reset }, sep), b') ∧
        halfRest m (2 * layout.quater + 4) (spine.bytes law pos).length (4 * layout.quater + 8)
            (spine.tailBytes law pos) = some (law.piece none sep ++ rest.bytes law pos) ∧
        ((plug left (.last kid)).bytes law pos).length ≤ 4 * layout.quater ∧
        (rest.bytes law pos).length ≤ 4 * layout.quater ∧ at_pos % catMax = layout.btree ∧
        b'.view = b.view ∧ Sound layout b' (at_pos ::ₘ own) := by
  have quater_ge := layout.quater_ge
  have codeMax_lt := suits.codeMax_lt
  have size : (b.file p.cat).head.blockSize = 4 * layout.quater + 8 := by
    rw [cat, sound.blockSize _ layout.btree_lt, layout.size_btree_eq]
  have half : (4 * layout.quater + 8) / 2 = 2 * layout.quater + 4 := by omega
  obtain ⟨head_own, leaf, bytes, block⟩ := on_disk spine.head spine.head_mem
  obtain ⟨b₁, counted, sound₁, view₁⟩ := countOf_spec (m := m) sound head_own block
  have pointer_le := encodePtr_length_le (sound.lt_two_pow head_own)
  have lengths : (spine.bytes law pos).length =
      (encodePtr (pos spine.head)).length + (spine.tailBytes law pos).length := by
    rw [spine.bytes_eq, length_append]
  obtain ⟨left, kid, sep, rest, b₂, spine_eq, run, rest_run, gt, le, sound₂, view₂⟩ :=
    firstHalf_spec pos count (2 * layout.quater + 4) (spine.bytes law pos).length
      (4 * layout.quater + 8) sound₁ formed (fun kid mem => view₁ ▸ on_disk kid mem) enough
      (by omega) (by omega) 0
  rw [zero_add, zero_add] at run
  have sep_valid : law.Valid sep := by
    rw [spine_eq] at formed
    have right := (formed_plug.mp formed).2
    exact right.1.1
  have whole : spine.bytes law pos = (plug left (.last kid)).bytes law pos ++
      (law.piece none sep ++ rest.bytes law pos) := by
    rw [spine_eq, bytes_plug, bytes_plug, append_assoc]
    rfl
  have whole_length := congrArg List.length whole
  rw [length_append] at whole_length
  have first_bytes : (spine.bytes law pos).take ((spine.bytes law pos).length -
      (law.piece none sep ++ rest.bytes law pos).length) =
        (plug left (.last kid)).bytes law pos := by
    rw [whole, take_left']
    rw [length_append]
    omega
  have rest_length : (law.piece none sep ++ rest.bytes law pos).length =
      (law.piece none sep).length + (rest.bytes law pos).length := length_append
  have cat_lt : p.cat < layout.noCat := cat ▸ layout.btree_lt
  rcases newBlock_spec (m := m) sound₂ false cat_lt with full | ⟨at_pos, b', new_run, pos_cat,
    view', sound'⟩
  · left
    simp only [splitInt, size, half, decodePtr_bytes, counted, bind, Except.bind, run,
      decode_separator sep_valid, full]
  · refine .inr ⟨left, kid, sep, rest, at_pos, b', spine_eq, ?_, rest_run, by omega, by omega,
      pos_cat.trans cat, view'.trans (view₂.trans view₁), sound'⟩
    simp only [splitInt, size, half, decodePtr_bytes, counted, bind, Except.bind, run,
      decode_separator sep_valid, new_run, first_bytes]

end

section

variable {h : Nat}

/-- What follows a child when it has got a new sibling. -/
def spRight {Kid : Type} (sp : Option (Item × Kid)) (right : Option (Item × Spine Item Kid)) :
    Option (Item × Spine Item Kid) :=
  match sp with
  | none => right
  | some (sep, sibling) => some (sep, .headed sibling right)

def kidsItems (kids : List (Tree Item h)) : List Item := kids.flatMap Tree.items

def kidsBlocks (kids : List (Tree Item h)) : Multiset Nat := (kids.map Tree.blocks).sum

omit [LinearOrder Item] in
theorem kidsItems_plug (left : List (Tree Item h × Item)) (kid : Tree Item h)
    (sp : Option (Item × Tree Item h)) (right : Option (Item × Spine Item (Tree Item h))) :
    kidsItems (plug left (.headed kid (spRight sp right))).toList =
      kidsItems (left.map Prod.fst) ++
        ((kid.items ++ spItems sp) ++ kidsItems (rightKids right)) := by
  rcases sp with _ | ⟨sep, sibling⟩ <;>
    simp [kidsItems, spRight, spItems, rightKids, append_assoc]

omit [LinearOrder Item] in
theorem kidsBlocks_plug (left : List (Tree Item h × Item)) (kid : Tree Item h)
    (sp : Option (Item × Tree Item h)) (right : Option (Item × Spine Item (Tree Item h))) :
    kidsBlocks (plug left (.headed kid (spRight sp right))).toList =
      (kidsBlocks (left.map Prod.fst) + kidsBlocks (rightKids right)) +
        (kid.blocks + spBlocks sp) := by
  rcases sp with _ | ⟨sep, sibling⟩
  · simp only [kidsBlocks, spRight, spBlocks, toList_plug, toList_headed,
      map_append, map_cons, sum_append, sum_cons, Option.map_none,
      Option.getD_none]
    abel
  · simp only [kidsBlocks, spRight, spBlocks, toList_plug, toList_headed, rightKids,
      map_append, map_cons, sum_append, sum_cons, Option.map_some,
      Option.getD_some]
    abel

/-- A changed child and its new sibling are in order where the child was. -/
theorem formed_replace {Kid : Type} {P : Option Item → Option Item → Kid → Prop}
    {left : List (Kid × Item)} {kid kid' : Kid} {right : Option (Item × Spine Item Kid)}
    {sp : Option (Item × Kid)}
    (formed : (plug left (.headed kid right)).Formed law.Valid P low high)
    (kid_formed : P (leftBound low left) ((sp.map Prod.fst).or (rightBound high right)) kid')
    (sp_formed : ∀ sep sibling, sp = some (sep, sibling) →
      (law.Valid sep ∧ Beyond (leftBound low left) sep ∧ Below (rightBound high right) sep) ∧
        P (some sep) (rightBound high right) sibling) :
    (plug left (.headed kid' (spRight sp right))).Formed law.Valid P low high := by
  obtain ⟨left_formed, kid_right⟩ := formed_plug.mp formed
  obtain ⟨-, right_formed⟩ := formed_headed.mp kid_right
  refine formed_plug.mpr ⟨left_formed, formed_headed.mpr ?_⟩
  rcases sp with _ | ⟨sep, sibling⟩
  · exact ⟨kid_formed, right_formed⟩
  · obtain ⟨⟨valid, beyond, below⟩, sibling_formed⟩ := sp_formed sep sibling rfl
    refine ⟨kid_formed, ⟨valid, beyond, ?_⟩, formed_headed.mpr ⟨sibling_formed, ?_⟩⟩
    · rcases right with _ | ⟨next, rest⟩
      · exact below
      · exact right_formed.1.2.2.trans (below_some.mp below)
    · rcases right with _ | ⟨next, rest⟩
      · trivial
      · exact ⟨⟨right_formed.1.1, beyond_some.mpr (below_some.mp below), right_formed.1.2.2⟩,
          right_formed.2⟩

def around (frame : Multiset Nat) (pos : Nat) (left : List (Tree Item h × Item))
    (right : Option (Item × Spine Item (Tree Item h))) : Multiset Nat :=
  frame + ({pos} + (kidsBlocks (left.map Prod.fst) + kidsBlocks (rightKids right)))

omit [LinearOrder Item] in
theorem items_around {t : Tree Item (h + 1)} {left : List (Tree Item h × Item)} {kid : Tree Item h}
    {right : Option (Item × Spine Item (Tree Item h))}
    (kids : Node.kids t = .plug left (.headed kid right)) :
    t.items = kidsItems (left.map Prod.fst) ++ (kid.items ++ kidsItems (rightKids right)) := by
  have items : t.items = kidsItems (Node.kids t).toList := rfl
  have plug := kidsItems_plug left kid none right
  rw [items, kids]
  simpa [spItems, spRight] using plug

omit [LinearOrder Item] in
theorem blocks_around {t : Tree Item (h + 1)} {left : List (Tree Item h × Item)}
    {kid : Tree Item h} {right : Option (Item × Spine Item (Tree Item h))}
    (kids : Node.kids t = .plug left (.headed kid right)) :
    frame + t.blocks = around frame t.pos left right + kid.blocks := by
  have blocks : t.blocks = {t.pos} + kidsBlocks (Node.kids t).toList := rfl
  have plug := kidsBlocks_plug left kid none right
  have parts : kidsBlocks (Node.kids t).toList =
      kidsBlocks (left.map Prod.fst) + kidsBlocks (rightKids right) + kid.blocks := by
    rw [kids]
    simpa [spBlocks, spRight] using plug
  rw [blocks, parts, around]
  abel

/-- A node with a child in memory that `insert_sub` has changed. -/
structure Routed (law : LawfulIsamc m) (layout : Layout) (frame : Multiset Nat)
    (low high : Option Item) (b : Isamb) (stream : Stream Item) (t : Tree Item (h + 1))
    (p : Block Code) (left : List (Tree Item h × Item)) (kid : Tree Item h)
    (right : Option (Item × Spine Item (Tree Item h))) (child : Block Code)
    (r : Descent Item Code) (t' : Tree Item h) (sp : Option (Item × Tree Item h))
    (done todo : List (Item × Nat)) : Prop where
  sound : Sound layout b (frame + t.blocks)
  held : Held law b.view p t
  node : Tree.NodeFormed law layout Tree.pos (Tree.Formed law layout) low high t
  kids : Node.kids t = .plug left (.headed kid right)
  noItems : child.noItems = readBack kid.count
  ready : Ready law (leftBound low left) (rightBound high right) stream kid.items
  /-- What `insert_sub` did. -/
  grown : Grown law layout (around frame t.pos left right) (leftBound low left)
    (rightBound high right) b stream.all kid.items child.noItems r t' sp done todo
  pos : t'.pos = kid.pos
  unwritten : r.b.view kid.pos = b.view kid.pos

namespace Routed

variable {stream : Stream Item} {t : Tree Item (h + 1)} {p child : Block Code}
  {left : List (Tree Item h × Item)} {kid t' : Tree Item h}
  {right : Option (Item × Spine Item (Tree Item h))} {r : Descent Item Code}
  {sp : Option (Item × Tree Item h)} {done todo : List (Item × Nat)}

abbrev newKids (left : List (Tree Item h × Item)) (t' : Tree Item h)
    (sp : Option (Item × Tree Item h)) (right : Option (Item × Spine Item (Tree Item h))) :
    Spine Item (Tree Item h) := .plug left (.headed t' (spRight sp right))

variable (routed : Routed law layout frame low high b stream t p left kid right child r t' sp done
  todo)

include routed

/-- The operations done are applied to the node's items. -/
theorem applied : Applied done t.items (kidsItems (newKids left t' sp right).toList) := by
  have kid_ok (low high : Option Item) (kid : Tree Item h)
      (formed : kid.pos % catMax = layout.btree ∧ kid.Formed law layout low high) :
      InOrder law low high kid.items := formed.2.inOrder
  have formed := routed.node.kids
  rw [routed.kids] at formed
  obtain ⟨left_formed, kid_right⟩ := formed_plug.mp formed
  obtain ⟨-, right_formed⟩ := formed_headed.mp kid_right
  have in_stream {op : Item × Nat} (mem : op ∈ done) : op ∈ stream.all :=
    routed.grown.ops ▸ mem_append_left todo mem
  rw [items_around routed.kids, kidsItems_plug]
  refine routed.grown.applied.frame ?_ ?_
  · intro x mem op op_mem
    exact left_formed.below kid_ok mem (routed.ready.all_above (in_stream op_mem))
  · intro x mem op op_mem
    exact right_formed.above kid_ok mem (routed.grown.reach op op_mem)

theorem formed : (newKids left t' sp right).Formed law.Valid
    (fun low high kid => kid.pos % catMax = layout.btree ∧ kid.Formed law layout low high)
    low high := by
  have before := routed.node.kids
  rw [routed.kids] at before
  obtain ⟨-, kid_right⟩ := formed_plug.mp before
  obtain ⟨⟨kid_cat, -⟩, -⟩ := formed_headed.mp kid_right
  refine formed_replace before ⟨routed.pos ▸ kid_cat, routed.grown.formed⟩ ?_
  intro sep sibling sp_eq
  obtain ⟨sep_ok, sibling_formed, sibling_cat, -⟩ := routed.grown.split sep sibling sp_eq
  exact ⟨sep_ok, sibling_cat, sibling_formed⟩

omit routed [LinearOrder Item] in
theorem mem_around {side : Tree Item h}
    (mem : side ∈ left.map Prod.fst ∨ side ∈ rightKids right) {pos : Nat}
    (pos_mem : pos ∈ side.blocks) : pos ∈ around frame t.pos left right := by
  have blocks_le : side.blocks ≤ kidsBlocks (left.map Prod.fst) + kidsBlocks (rightKids right) := by
    rcases mem with mem | mem
    · exact (single_le_sum (fun _ _ => Multiset.zero_le _) _
        (mem_map.mpr ⟨side, mem, rfl⟩)).trans (Multiset.le_add_right _ _)
    · exact (single_le_sum (fun _ _ => Multiset.zero_le _) _
        (mem_map.mpr ⟨side, mem, rfl⟩)).trans (Multiset.le_add_left _ _)
  have inside := mem_of_le blocks_le pos_mem
  exact mem_add.mpr (.inr (mem_add.mpr (.inr inside)))

theorem side_stored {view : Nat → Option DiskBlock}
    (same : ∀ pos ∈ around frame t.pos left right, view pos = b.view pos) {side : Tree Item h}
    (mem : side ∈ left.map Prod.fst ∨ side ∈ rightKids right) : side.Stored law view := by
  have in_kids : side ∈ (Node.kids t).toList := by
    rw [routed.kids, toList_plug, toList_headed]
    simp only [mem_append, mem_cons]
    tauto
  have stored : side.Stored law b.view := routed.held.kids side in_kids
  exact stored.congr fun pos pos_mem => same pos (mem_around mem pos_mem)

theorem sound_grown :
    Sound layout r.b (around frame t.pos left right + (t'.blocks + spBlocks sp)) :=
  routed.grown.sound

theorem kid_block : r.b.view t'.pos =
    some (.used (Tree.isLeaf h) (encodePtr kid.count) (kid.bytes law)) := by
  have mem : kid ∈ (Node.kids t).toList := by
    rw [routed.kids, toList_plug, toList_headed]
    simp
  have stored : kid.Stored law b.view := routed.held.kids kid mem
  rw [routed.pos, routed.unwritten]
  exact (Tree.stored_iff.mp stored).1

theorem p_cat : p.cat = layout.btree := routed.held.cat.trans routed.node.cat

theorem p_bytes : p.bytes = leftBytes law Tree.pos left ++
    (encodePtr t'.pos ++ rightBytes law Tree.pos right) := by
  have bytes : p.bytes = (Node.kids t).bytes law Tree.pos := routed.held.bytes
  rw [bytes, routed.kids, bytes_plug, bytes_headed, routed.pos]

/-- The bytes in front of the place for a new pointer. -/
theorem front_bytes :
    p.bytes.take (p.bytes.length - (rightBytes law Tree.pos right).length) =
      leftBytes law Tree.pos left ++ encodePtr t'.pos := by
  rw [routed.p_bytes, ← append_assoc, take_left']
  simp only [length_append]
  omega

theorem new_bytes (sep : Item) (sibling : Tree Item h) :
    p.bytes.take (p.bytes.length - (rightBytes law Tree.pos right).length) ++
        ((m.encode m.reset sep).2 ++
          (encodePtr sibling.pos ++ rightBytes law Tree.pos right)) =
      (newKids left t' (some (sep, sibling)) right).bytes law Tree.pos := by
  rw [routed.front_bytes, bytes_plug, bytes_headed, append_assoc]
  change _ = leftBytes law Tree.pos left ++ (encodePtr t'.pos ++
    (law.piece none sep ++ (headed sibling right).bytes law Tree.pos))
  rw [bytes_headed]
  rfl

/-- The change of the counter is that of the number of items. -/
theorem diff_eq : r.p.noItems - child.noItems + (r.sp.map fun sp => sp.1.noItems).getD 0 =
    ((kidsItems (newKids left t' sp right).toList).length : Int) - t.items.length := by
  have count := routed.grown.count
  rw [items_around routed.kids, kidsItems_plug]
  simp only [length_append] at count ⊢
  push_cast at count ⊢
  omega

end Routed

theorem Spine.Formed.cut {Kid : Type} {P : Option Item → Option Item → Kid → Prop}
    {left : List (Kid × Item)} {kid : Kid} {sep : Item} {rest : Spine Item Kid}
    (formed : (plug left (.cons kid sep rest)).Formed law.Valid P low high) :
    (plug left (.last kid)).Formed law.Valid P low (some sep) ∧
      (law.Valid sep ∧ Beyond low sep ∧ Below high sep) ∧
      rest.Formed law.Valid P (some sep) high := by
  induction left generalizing low with
  | nil => exact ⟨formed.2.1, formed.1, formed.2.2⟩
  | cons entry left ih =>
    obtain ⟨first, s⟩ := entry
    obtain ⟨⟨valid, beyond, below⟩, first_formed, rest_formed⟩ := formed
    obtain ⟨left_formed, ⟨sep_valid, sep_beyond, sep_below⟩, right_formed⟩ := ih rest_formed
    have less : s < sep := beyond_some.mp sep_beyond
    exact ⟨⟨⟨valid, beyond, below_some.mpr less⟩, first_formed, left_formed⟩,
      ⟨sep_valid, fun u mem => (beyond u mem).trans less, sep_below⟩, right_formed⟩

/-- The counter of a child as it is on disk while `kid` has changed. -/
def diskCount (kid side : Tree Item h) : Int :=
  if side.pos = kid.pos then kid.count else side.count

/-- What the children up to `last` claim to have when their blocks are read. -/
def firstCount (kid : Tree Item h) (left : List (Tree Item h × Item)) (last : Tree Item h) : Int :=
  ((left.map Prod.fst ++ [last]).map fun side => (readBack (diskCount kid side) : Int)).sum

omit [LinearOrder Item] in
theorem adjustCount_kept (p : Block Code) (diff : Int) :
    (adjustCount p diff).pos = p.pos ∧ (adjustCount p diff).cat = p.cat ∧
      (adjustCount p diff).leaf = p.leaf ∧ (adjustCount p diff).deleted = p.deleted := by
  unfold adjustCount
  split <;> exact ⟨rfl, rfl, rfl, rfl⟩

omit [LinearOrder Item] in
@[simp] theorem adjustCount_bytes (p : Block Code) (diff : Int) :
    (adjustCount p diff).bytes = p.bytes := by
  unfold adjustCount
  split <;> rfl

omit [LinearOrder Item] in
@[simp] theorem adjustCount_noItems (p : Block Code) (diff : Int) :
    (adjustCount p diff).noItems = p.noItems + diff := by
  unfold adjustCount
  split
  · next zero => rw [zero, add_zero]
  · rfl

namespace Routed

variable {stream : Stream Item} {t : Tree Item (h + 1)} {p child : Block Code}
  {left : List (Tree Item h × Item)} {kid t' : Tree Item h}
  {right : Option (Item × Spine Item (Tree Item h))} {r : Descent Item Code}
  {sp : Option (Item × Tree Item h)} {done todo : List (Item × Nat)}

variable (routed : Routed law layout frame low high b stream t p left kid right child r t' sp done
  todo)

include routed

theorem reach : ∀ op ∈ done, Below high op.1 := by
  intro op mem
  have below := routed.grown.reach op mem
  have formed := routed.node.kids
  rw [routed.kids] at formed
  obtain ⟨-, right_formed⟩ := formed_headed.mp (formed_plug.mp formed).2
  rcases right with _ | ⟨sep, rest⟩
  · exact below
  · exact right_formed.1.2.2.trans (below_some.mp below)

/-- All children are on disk once the changed ones are. -/
theorem new_stored {view : Nat → Option DiskBlock}
    (same : ∀ pos ∈ around frame t.pos left right, view pos = b.view pos)
    (stored : t'.Stored law view) (sibling : ∀ sep s, sp = some (sep, s) → s.Stored law view) :
    ∀ side ∈ (newKids left t' sp right).toList, side.Stored law view := by
  intro side mem
  have cases_mem : side ∈ left.map Prod.fst ∨ side = t' ∨ (∃ sep, sp = some (sep, side)) ∨
      side ∈ rightKids right := by
    rw [toList_plug, toList_headed, mem_append, mem_cons] at mem
    rcases sp with _ | ⟨sep, s⟩
    · simpa [spRight] using mem
    · simp only [spRight, rightKids, toList_headed, mem_cons] at mem
      rcases mem with mem | mem | mem | mem
      · exact .inl mem
      · exact .inr (.inl mem)
      · exact .inr (.inr (.inl ⟨sep, by rw [mem]⟩))
      · exact .inr (.inr (.inr mem))
  rcases cases_mem with mem | rfl | ⟨sep, sp_eq⟩ | mem
  · exact routed.side_stored same (.inl mem)
  · exact stored
  · exact sibling sep side sp_eq
  · exact routed.side_stored same (.inr mem)

variable (frame t left t' sp right) in
omit routed [LinearOrder Item] in
theorem account_eq : frame + ({t.pos} + kidsBlocks (newKids left t' sp right).toList) =
    around frame t.pos left right + (t'.blocks + spBlocks sp) := by
  rw [kidsBlocks_plug, around]
  abel

theorem grown_unsplit {b' : Isamb} (p' : Block Code) {count : Int}
    (sound : Sound layout b' (around frame t.pos left right + (t'.blocks + spBlocks sp)))
    (same : ∀ pos ∈ around frame t.pos left right, b'.view pos = b.view pos)
    (stored : t'.Stored law b'.view) (sibling : ∀ sep s, sp = some (sep, s) → s.Stored law b'.view)
    (kept : p'.pos = p.pos ∧ p'.cat = p.cat ∧ p'.leaf = p.leaf ∧ p'.deleted = p.deleted)
    (bytes : p'.bytes = (newKids left t' sp right).bytes law Tree.pos)
    (fits : p'.bytes.length ≤ 4 * layout.quater)
    (counted : (p'.dirty = true ∧ count = p'.noItems) ∨
      (p'.dirty = false ∧ p.dirty = false ∧ count = t.count ∧ p'.noItems = p.noItems ∧
        p'.bytes = p.bytes))
    (noItems : p'.noItems = p.noItems + (r.p.noItems - child.noItems +
      (r.sp.map fun sp => sp.1.noItems).getD 0)) :
    Grown law layout frame low high b stream.all t.items p.noItems
      { r with b := b', p := p', sp := none }
      (.node t.pos count (newKids left t' sp right))
      (none : Option (Item × Tree Item (h + 1))) done todo where
  sound := by
    change Sound layout b' (frame + ({t.pos} + kidsBlocks (newKids left t' sp right).toList + 0))
    rw [add_zero, account_eq]
    exact sound
  frame pos mem := same pos (mem_add.mpr (.inl mem))
  held := by
    refine ⟨kept.1.trans routed.held.pos, kept.2.1.trans routed.held.cat,
      kept.2.2.1.trans routed.held.leaf, kept.2.2.2.trans routed.held.kept, bytes,
      routed.new_stored same stored sibling, ?_⟩
    rcases counted with ⟨dirty, count_eq⟩ | ⟨clean, before, count_eq, noItems_eq, bytes_eq⟩
    · exact .inl ⟨dirty, count_eq⟩
    · have pos_around : t.pos ∈ around frame t.pos left right := by simp [around]
      obtain ⟨-, read, on_disk⟩ :=
        routed.held.count.resolve_left fun dirty => by simp [before] at dirty
      have bytes_t : t.bytes law = (newKids left t' sp right).bytes law Tree.pos := by
        rw [← routed.held.bytes, ← bytes_eq, bytes]
      refine .inr ⟨clean, ?_, ?_⟩
      · change p'.noItems = readBack count
        rw [noItems_eq, count_eq, read]
      · change b'.view t.pos = some (.used false (encodePtr count)
          ((newKids left t' sp right).bytes law Tree.pos))
        rw [same t.pos pos_around, on_disk, count_eq, bytes_t]
        rfl
  sibling := trivial
  formed := ⟨routed.node.cat, by
    rw [layout.room_btree]
    exact bytes ▸ fits, routed.formed⟩
  split := nofun
  ops := routed.grown.ops
  progress := routed.grown.progress
  reach := routed.reach
  applied := by
    change Applied done t.items (kidsItems (newKids left t' sp right).toList ++ [])
    rw [append_nil]
    exact routed.applied
  remains := routed.grown.remains
  count := by
    change p'.noItems + 0 - p.noItems =
      ((kidsItems (newKids left t' sp right).toList ++ []).length : Int) - t.items.length
    rw [append_nil, ← routed.diff_eq, noItems]
    omega
  occupied split := absurd rfl split

/-- The child was not split: the node only gets its new counter. -/
theorem join_same (clean : p.dirty = false) (unsplit : r.sp = none) :
    ∃ r' count, joinChild m p (rightBytes law Tree.pos right) child r = .ok r' ∧
      Grown law layout frame low high b stream.all t.items p.noItems r'
        (.node t.pos count (newKids left t' sp right))
        (none : Option (Item × Tree Item (h + 1))) done todo ∧
      r'.b.view t.pos = b.view t.pos ∧
      (t.Exact → count = (kidsItems (newKids left t' sp right).toList).length) := by
  have sp_none : sp = none := by
    have sibling := routed.grown.sibling
    rw [unsplit] at sibling
    rcases sp with _ | s
    · rfl
    · exact sibling.elim
  subst sp_none
  have sound := routed.sound_grown
  rw [show spBlocks (none : Option (Item × Tree Item h)) = 0 from rfl, add_zero] at sound
  obtain ⟨b', closed, sound', stored, same⟩ :=
    closeBlock_held sound routed.grown.held routed.grown.formed
  have same_b : ∀ pos ∈ around frame t.pos left right, b'.view pos = b.view pos := fun pos mem =>
    (same pos mem).trans (routed.grown.frame pos mem)
  have pos_around : t.pos ∈ around frame t.pos left right := by simp [around]
  have diff_eq := routed.diff_eq
  have bytes_same : p.bytes = (newKids left t' none right).bytes law Tree.pos := by
    rw [routed.p_bytes, bytes_plug, bytes_headed]
    rfl
  have fits : p.bytes.length ≤ 4 * layout.quater := by
    rw [← layout.room_btree, show p.bytes = _ from routed.held.bytes]
    exact routed.node.fits
  have sound_none : Sound layout b' (around frame t.pos left right +
      (t'.blocks + spBlocks (none : Option (Item × Tree Item h)))) := by
    rw [show spBlocks (none : Option (Item × Tree Item h)) = 0 from rfl, add_zero]
    exact sound'
  let diff := r.p.noItems - child.noItems + (r.sp.map fun sp => sp.1.noItems).getD 0
  refine ⟨_, if diff = 0 then t.count else p.noItems + diff, ?_,
    routed.grown_unsplit (adjustCount p diff) sound_none same_b stored nofun
      (adjustCount_kept p diff) (by rw [adjustCount_bytes, bytes_same])
      (by rw [adjustCount_bytes]; exact fits) ?_ (adjustCount_noItems p diff),
    same_b t.pos pos_around, ?_⟩
  · simp only [joinChild, diff, unsplit, closed, bind, Except.bind]
  · by_cases zero : diff = 0
    · refine .inr ?_
      rw [if_pos zero, adjustCount, if_pos zero]
      exact ⟨clean, clean, rfl, rfl, rfl⟩
    · refine .inl ?_
      rw [if_neg zero, adjustCount, if_neg zero]
      exact ⟨rfl, rfl⟩
  · intro exact
    have count : t.count = t.items.length := exact.1
    have read : p.noItems = readBack t.count := by
      rcases routed.held.count with ⟨dirty, -⟩ | ⟨-, noItems, -⟩
      · simp [clean] at dirty
      · exact noItems
    rw [count, readBack_natCast] at read
    split
    · next zero =>
      rw [count]
      omega
    · rw [read]
      omega

/-- Every child's counter is exact once those of the changed ones are. -/
theorem new_exact (exact : t.Exact) (kid_exact : t'.Exact)
    (sibling : ∀ sep s, sp = some (sep, s) → s.Exact) :
    ∀ side ∈ (newKids left t' sp right).toList, side.Exact := by
  have old : ∀ side ∈ (Node.kids t).toList, side.Exact := exact.2
  rw [routed.kids, toList_plug, toList_headed] at old
  intro side mem
  rw [toList_plug, toList_headed, mem_append, mem_cons] at mem
  rcases mem with mem | rfl | mem
  · exact old side (mem_append_left _ mem)
  · exact kid_exact
  · rcases sp with _ | ⟨sep, s⟩
    · exact old side (mem_append_right _ (mem_cons_of_mem kid mem))
    · simp only [spRight, rightKids, toList_headed, mem_cons] at mem
      rcases mem with rfl | mem
      · exact sibling sep side rfl
      · exact old side (mem_append_right _ (mem_cons_of_mem kid mem))

variable {sep : Item}
variable {p2 : Block Code}

/-- After the sibling is written: the state in which the pointer to it is put in. -/
theorem close_sibling (split : r.sp = some (p2, sep)) :
    ∃ sibling b₁, sp = some (sep, sibling) ∧ closeBlock m r.b p2 = .ok b₁ ∧
      Sound layout b₁ (around frame t.pos left right + (t'.blocks + sibling.blocks)) ∧
      sibling.Stored law b₁.view ∧ Held law b₁.view r.p t' ∧ p2.pos = sibling.pos ∧
      (∀ pos ∈ around frame t.pos left right, b₁.view pos = b.view pos) ∧
      b₁.view t'.pos =
        some (.used (Tree.isLeaf h) (encodePtr kid.count) (kid.bytes law)) := by
  have held_sibling := routed.grown.sibling
  rw [split] at held_sibling
  rcases sp with _ | ⟨sep', sibling⟩
  · exact held_sibling.elim
  obtain ⟨rfl, -, held⟩ := held_sibling
  have sound := routed.sound_grown
  change Sound layout r.b (around frame t.pos left right + (t'.blocks + sibling.blocks)) at sound
  rw [← add_assoc] at sound
  obtain ⟨-, sibling_formed, -, -⟩ := routed.grown.split sep sibling rfl
  obtain ⟨b₁, closed, sound₁, stored, same⟩ := closeBlock_held sound held sibling_formed
  have t'_nodup : t'.blocks.Nodup := by
    have nodup := sound.nodup
    rw [add_assoc] at nodup
    exact (nodup_add.mp (nodup_add.mp nodup).2.1).1
  have same_t' : ∀ pos ∈ t'.blocks, b₁.view pos = r.b.view pos := fun pos mem =>
    same pos (mem_add.mpr (.inr mem))
  refine ⟨sibling, b₁, rfl, closed, by rwa [← add_assoc], stored,
    routed.grown.held.congr same_t' t'_nodup, held.pos, ?_, ?_⟩
  · intro pos mem
    rw [same pos (mem_add.mpr (.inl mem)), routed.grown.frame pos mem]
  · rw [same_t' _ t'.pos_mem_blocks, routed.kid_block]

variable {sibling : Tree Item h}
variable {b₁ : Isamb}

theorem join_fit (split : r.sp = some (p2, sep)) (sp_eq : sp = some (sep, sibling))
    (closed₁ : closeBlock m r.b p2 = .ok b₁) (p2_pos : p2.pos = sibling.pos)
    (sound₁ : Sound layout b₁ (around frame t.pos left right + (t'.blocks + sibling.blocks)))
    (stored : sibling.Stored law b₁.view) (held : Held law b₁.view r.p t')
    (same : ∀ pos ∈ around frame t.pos left right, b₁.view pos = b.view pos)
    (fits : ((newKids left t' sp right).bytes law Tree.pos).length ≤ 4 * layout.quater) :
    ∃ r', joinChild m p (rightBytes law Tree.pos right) child r = .ok r' ∧
      Grown law layout frame low high b stream.all t.items p.noItems r'
        (.node t.pos (p.noItems + (r.p.noItems - child.noItems +
          (r.sp.map fun sp => sp.1.noItems).getD 0)) (newKids left t' sp right))
        (none : Option (Item × Tree Item (h + 1))) done todo ∧
      r'.b.view t.pos = b.view t.pos := by
  subst sp_eq
  have pos_around : t.pos ∈ around frame t.pos left right := by simp [around]
  have swap : around frame t.pos left right + (t'.blocks + sibling.blocks) =
      around frame t.pos left right + sibling.blocks + t'.blocks := by abel
  rw [swap] at sound₁
  obtain ⟨b₂, closed₂, sound₂, stored₂, same₂⟩ := closeBlock_held sound₁ held routed.grown.formed
  have same_b : ∀ pos ∈ around frame t.pos left right, b₂.view pos = b.view pos := fun pos mem =>
    (same₂ pos (mem_add.mpr (.inl mem))).trans (same pos mem)
  have sibling_stored : sibling.Stored law b₂.view :=
    stored.congr fun pos mem => same₂ pos (mem_add.mpr (.inr mem))
  have room : b₁.blockMax p.cat = 4 * layout.quater := by
    rw [routed.p_cat, sound₁.blockMax _ layout.btree_lt, layout.room_btree]
  let diff := r.p.noItems - child.noItems + (r.sp.map fun sp => sp.1.noItems).getD 0
  refine ⟨_, ?_, routed.grown_unsplit
    ({ adjustCount p diff with
      bytes := (newKids left t' (some (sep, sibling)) right).bytes law Tree.pos, dirty := true })
    (by rw [show spBlocks (some (sep, sibling)) = sibling.blocks from rfl, swap]; exact sound₂)
    same_b stored₂ (by rintro _ _ ⟨⟩; exact sibling_stored) (adjustCount_kept p diff) rfl fits
    (.inl ⟨rfl, (adjustCount_noItems p diff).symm⟩) (adjustCount_noItems p diff),
    same_b t.pos pos_around⟩
  have cat := (adjustCount_kept p diff).2.1
  have new_bytes := routed.new_bytes sep sibling
  have max := room.symm ▸ fits
  rw [← cat] at max
  simp only [joinChild, diff, split, closed₁, bind, Except.bind, p2_pos, adjustCount_bytes,
    new_bytes] at max ⊢
  rw [if_pos max, closed₂]

/-- The children's blocks as the split finds them: that of the changed child is the old one. -/
theorem kids_on_disk (sp_eq : sp = some (sep, sibling)) (stored : sibling.Stored law b₁.view)
    (same : ∀ pos ∈ around frame t.pos left right, b₁.view pos = b.view pos)
    (child_block : b₁.view t'.pos =
      some (.used (Tree.isLeaf h) (encodePtr kid.count) (kid.bytes law))) :
    ∀ side ∈ (newKids left t' sp right).toList,
      side.pos ∈ around frame t.pos left right + (t'.blocks + sibling.blocks) ∧
        ∃ leaf bytes, b₁.view side.pos = some
          (.used leaf (encodePtr (diskCount kid side)) bytes) := by
  intro side mem
  have account := account_eq frame t left t' right sp
  subst sp_eq
  constructor
  · have le : side.blocks ≤ kidsBlocks (newKids left t' (some (sep, sibling)) right).toList :=
      single_le_sum (fun _ _ => Multiset.zero_le _) _ (mem_map.mpr ⟨side, mem, rfl⟩)
    change _ ∈ _ + (t'.blocks + spBlocks (some (sep, sibling)))
    rw [← account]
    exact mem_add.mpr (.inr (mem_add.mpr
      (.inr (mem_of_le le side.pos_mem_blocks))))
  · by_cases changed : side.pos = kid.pos
    · rw [diskCount, if_pos changed, changed, ← routed.pos, child_block]
      exact ⟨_, _, rfl⟩
    · rw [diskCount, if_neg changed]
      have side_stored : side.Stored law b₁.view := by
        rw [toList_plug, toList_headed, mem_append, mem_cons] at mem
        rcases mem with mem | rfl | mem
        · exact routed.side_stored same (.inl mem)
        · exact absurd routed.pos changed
        · simp only [spRight, rightKids, toList_headed, mem_cons] at mem
          rcases mem with rfl | mem
          · exact stored
          · exact routed.side_stored same (.inr mem)
      exact ⟨_, _, (Tree.stored_iff.mp side_stored).1⟩

/-- The node with the new pointer is hardly larger than it was. -/
theorem new_size {own : Multiset Nat}
    (sp_eq : sp = some (sep, sibling)) (sep_valid : law.Valid sep) (sound₁ : Sound layout b₁ own)
    (mem : sibling.pos ∈ own) :
    ((newKids left t' sp right).bytes law Tree.pos).length ≤ 4 * layout.quater + (law.codeMax + 9) ∧
      (newKids left t' sp right).toList.length ≤ 4 * layout.quater + 8 := by
  subst sp_eq
  have old_fits := routed.node.fits
  rw [layout.room_btree, routed.kids] at old_fits
  have old_kids := (plug left (.headed kid right)).length_le_bytes law Tree.pos
  have item_le := law.piece_le law.valid_none sep_valid
  have pointer_le := encodePtr_length_le (sound₁.lt_two_pow mem)
  constructor
  · rw [bytes_plug, bytes_headed, routed.pos] at *
    simp only [spRight, rightBytes, bytes_headed, length_append] at old_fits ⊢
    omega
  · simp only [toList_plug, toList_headed, spRight, rightKids, length_append,
      length_cons] at old_kids ⊢
    omega

theorem join_over [Suits law layout] (split : r.sp = some (p2, sep))
    (sp_eq : sp = some (sep, sibling))
    (closed₁ : closeBlock m r.b p2 = .ok b₁) (p2_pos : p2.pos = sibling.pos)
    (sound₁ : Sound layout b₁ (around frame t.pos left right + (t'.blocks + sibling.blocks)))
    (stored : sibling.Stored law b₁.view) (held : Held law b₁.view r.p t')
    (same : ∀ pos ∈ around frame t.pos left right, b₁.view pos = b.view pos)
    (child_block : b₁.view t'.pos =
      some (.used (Tree.isLeaf h) (encodePtr kid.count) (kid.bytes law)))
    (overfull : 4 * layout.quater < ((newKids left t' sp right).bytes law Tree.pos).length) :
    joinChild m p (rightBytes law Tree.pos right) child r = .error .exit ∨
      ∃ r' l k cut rest at_pos, joinChild m p (rightBytes law Tree.pos right) child r = .ok r' ∧
        newKids left t' sp right = .plug l (.cons k cut rest) ∧
        halfRest m (2 * layout.quater + 4) ((newKids left t' sp right).bytes law Tree.pos).length
          (4 * layout.quater + 8) ((newKids left t' sp right).tailBytes law Tree.pos) =
            some (law.piece none cut ++ rest.bytes law Tree.pos) ∧
        Grown law layout frame low high b stream.all t.items p.noItems r'
          (.node t.pos (firstCount kid l k) (.plug l (.last k)))
          (some (cut, .node at_pos (p.noItems + (r.p.noItems - child.noItems +
            (r.sp.map fun sp => sp.1.noItems).getD 0) - firstCount kid l k) rest)) done todo ∧
        r'.b.view t.pos = b.view t.pos := by
  have sep_valid : law.Valid sep := (routed.grown.split sep sibling sp_eq).1.1
  have on_disk := routed.kids_on_disk sp_eq stored same child_block
  obtain ⟨size_le, kids_le⟩ := routed.new_size sp_eq sep_valid sound₁
    (by simp [sibling.pos_mem_blocks])
  let diff := r.p.noItems - child.noItems + (r.sp.map fun sp => sp.1.noItems).getD 0
  have kept := adjustCount_kept p diff
  have room : b₁.blockMax (adjustCount p diff).cat = 4 * layout.quater := by
    rw [kept.2.1, routed.p_cat, sound₁.blockMax _ layout.btree_lt, layout.room_btree]
  have new_bytes : p.bytes.take (p.bytes.length - (rightBytes law Tree.pos right).length) ++
      ((m.encode m.reset sep).2 ++ (encodePtr sibling.pos ++ rightBytes law Tree.pos right)) =
        (newKids left t' sp right).bytes law Tree.pos := sp_eq ▸ routed.new_bytes sep sibling
  have joined : joinChild m p (rightBytes law Tree.pos right) child r =
      (splitInt m b₁ { adjustCount p diff with dirty := true }
        ((newKids left t' sp right).bytes law Tree.pos)).bind fun out =>
          (closeBlock m out.2.2 r.p).bind fun b =>
            .ok { r with b, p := out.1, sp := some out.2.1 } := by
    have not_fits : ¬((newKids left t' sp right).bytes law Tree.pos).length ≤
        b₁.blockMax (adjustCount p diff).cat := by omega
    simp only [joinChild, diff, split, closed₁, bind, Except.bind, p2_pos, adjustCount_bytes,
      new_bytes] at not_fits ⊢
    rw [if_neg not_fits]
  rw [joined]
  rcases splitInt_spec (p := { adjustCount p diff with dirty := true }) Tree.pos (diskCount kid)
    sound₁ (kept.2.1.trans routed.p_cat) routed.formed on_disk kids_le overfull size_le with
    full | ⟨l, k, cut, rest, at_pos, b₂, kids_eq, run, rest_run, first_fits, rest_fits, at_cat,
      view₂, sound₂⟩
  · left
    rw [full]
    rfl
  rw [run]
  have account := account_eq frame t left t' right sp
  have sp_blocks : spBlocks sp = sibling.blocks := by rw [sp_eq]; rfl
  have swap : at_pos ::ₘ (around frame t.pos left right + (t'.blocks + sibling.blocks)) =
      at_pos ::ₘ (around frame t.pos left right + sibling.blocks) + t'.blocks := by
    rw [Multiset.cons_add, add_assoc, add_comm t'.blocks]
  have t'_nodup : t'.blocks.Nodup := by
    have nodup := sound₂.nodup
    rw [swap] at nodup
    exact (nodup_add.mp nodup).2.1
  rw [swap] at sound₂
  obtain ⟨b₃, closed₃, sound₃, stored₃, same₃⟩ := closeBlock_held sound₂
    (held.congr (fun pos _ => congrFun view₂ pos) t'_nodup) routed.grown.formed
  rw [← swap, ← sp_blocks, ← account] at sound₃
  have same_b : ∀ pos ∈ around frame t.pos left right, b₃.view pos = b.view pos := by
    intro pos mem
    rw [same₃ pos (Multiset.mem_cons_of_mem (mem_add.mpr (.inl mem))), view₂]
    exact same pos mem
  have sibling_stored : sibling.Stored law b₃.view := stored.congr fun pos mem => by
    rw [same₃ pos (Multiset.mem_cons_of_mem (mem_add.mpr (.inr mem))), view₂]
  have all_stored : ∀ side ∈ (newKids left t' sp right).toList, side.Stored law b₃.view :=
    routed.new_stored same_b stored₃ (by
      rw [sp_eq]
      rintro _ _ ⟨⟩
      exact sibling_stored)
  have kids_list : (newKids left t' sp right).toList =
      (plug l (.last k)).toList ++ rest.toList := by
    rw [kids_eq]
    simp [toList]
  have pos_around : t.pos ∈ around frame t.pos left right := by simp [around]
  have formed := routed.formed
  rw [kids_eq] at formed
  obtain ⟨first_formed, cut_ok, rest_formed⟩ := formed.cut
  have p_cat := routed.p_cat
  simp only [Except.bind, closed₃]
  refine .inr ⟨_, l, k, cut, rest, at_pos, rfl, kids_eq, rest_run, ?_, same_b t.pos pos_around⟩
  refine ⟨?_, fun pos mem => same_b pos (mem_add.mpr (.inl mem)), ?_, ⟨rfl, rfl, ?_⟩,
    ⟨routed.node.cat, by rw [layout.room_btree]; exact first_fits, first_formed⟩, ?_,
    routed.grown.ops, routed.grown.progress, routed.reach, ?_, routed.grown.remains, ?_,
    fun _ => ?_⟩
  · have same_account : frame + (({t.pos} + kidsBlocks (plug l (.last k)).toList) +
        ({at_pos} + kidsBlocks rest.toList)) =
        at_pos ::ₘ (frame + ({t.pos} + kidsBlocks (newKids left t' sp right).toList)) := by
      rw [kids_list, kidsBlocks, kidsBlocks, kidsBlocks, map_append, sum_append,
        ← Multiset.singleton_add]
      abel
    exact same_account ▸ sound₃
  · exact ⟨kept.1.trans routed.held.pos, kept.2.1.trans routed.held.cat,
      kept.2.2.1.trans routed.held.leaf, kept.2.2.2.trans routed.held.kept, rfl,
      fun side mem => all_stored side (kids_list ▸ mem_append_left _ mem), .inl ⟨rfl, rfl⟩⟩
  · refine ⟨rfl, ?_, rfl, rfl, rfl,
      fun side mem => all_stored side (kids_list ▸ mem_append_right _ mem), .inl ⟨rfl, ?_⟩⟩
    · exact (kept.2.1.trans p_cat).trans at_cat.symm
    · exact congrArg (· - firstCount kid l k) (adjustCount_noItems p diff).symm
  · rintro _ _ ⟨⟩
    exact ⟨cut_ok, ⟨at_cat, by rw [layout.room_btree]; exact rest_fits, rest_formed⟩, at_cat,
      routed.node.cat⟩
  · change Applied done t.items (kidsItems (plug l (.last k)).toList ++
      kidsItems rest.toList)
    rw [kidsItems, kidsItems, ← flatMap_append, ← kids_list]
    exact routed.applied
  · change firstCount kid l k + ((adjustCount p diff).noItems - firstCount kid l k) - p.noItems =
      ((kidsItems (plug l (.last k)).toList ++ kidsItems rest.toList).length : Int) -
        t.items.length
    rw [kidsItems, kidsItems, ← flatMap_append, ← kids_list, adjustCount_noItems]
    have diff_eq := routed.diff_eq
    rw [kidsItems] at diff_eq
    omega
  · change kidsItems (plug l (.last k)).toList ++ kidsItems rest.toList ≠ []
    rw [kidsItems, kidsItems, ← flatMap_append, ← kids_list]
    have occupied := routed.grown.occupied (by rw [sp_eq]; exact Option.some_ne_none _)
    have items := kidsItems_plug left t' sp right
    rw [kidsItems] at items
    rw [items]
    exact append_ne_nil_of_right_ne_nil _ (append_ne_nil_of_left_ne_nil occupied _)

end Routed

end

end Zebra.Isamb
