import Zebra.Isamb.Tree

/-!
# What one descent does to a tree

`Held` ties a block in memory to the tree below it; closing such a block stores the tree.  `Grown`
is the contract of `insert_leaf`, `insert_int` and `insert_sub` alike: the operations taken off the
stream are applied to the items, and the subtree may have got a new sibling to its right.
-/

namespace Zebra.Isamb

open Option Isamb.Tree

variable {Item Code : Type} [LinearOrder Item] {m : IsamcM Item Code} (law : LawfulIsamc m)
  (layout : Layout)

section

variable {Kid : Type} {law}

theorem encodePtr_length_pos (count : Int) : 0 < (encodePtr count).length := by
  unfold encodePtr
  split
  · exact Varint.encode_length_pos _
  · exact Nat.zero_lt_one

theorem encodePtr_length_le {pos : Nat} (small : pos < 2 ^ 63) : (encodePtr pos).length ≤ 9 := by
  unfold encodePtr
  split
  · exact Varint.encode_length_le (k := 8) small
  · exact Nat.one_le_ofNat

/-- The bytes behind the first pointer of an internal node. -/
def Spine.tailBytes (law : LawfulIsamc m) (pos : Kid → Nat) : Spine Item Kid → List Byte
  | .last _ => []
  | .cons _ sep rest => law.piece none sep ++ rest.bytes law pos

theorem Spine.bytes_eq (pos : Kid → Nat) (spine : Spine Item Kid) :
    spine.bytes law pos = encodePtr (pos spine.head) ++ spine.tailBytes law pos := by
  cases spine with
  | last kid => simp [bytes, head, tailBytes]
  | cons kid sep rest => rfl

theorem decodePtr_bytes (pos : Kid → Nat) (spine : Spine Item Kid) :
    decodePtr (spine.bytes law pos) = some (pos spine.head, spine.tailBytes law pos) := by
  rw [spine.bytes_eq, decodePtr_encodePtr]

theorem decode_separator {sep : Item} (valid : law.Valid sep) (src : List Byte) :
    m.decode m.reset (law.piece none sep ++ src) = some (sep, law.after sep, src) :=
  law.decode_piece law.valid_none valid src

theorem decodeEntry_bytes {sep : Item} (valid : law.Valid sep) (pos : Kid → Nat)
    (spine : Spine Item Kid) :
    decodeEntry m (law.piece none sep ++ spine.bytes law pos) =
      some (sep, pos spine.head, spine.tailBytes law pos) := by
  simp only [decodeEntry, decode_separator valid, bind_eq_bind, bind_some,
    decodePtr_bytes]

theorem separator_ne_nil {sep : Item} (valid : law.Valid sep) (src : List Byte) :
    law.piece none sep ++ src ≠ [] := by
  have two_le := law.two_le_piece law.valid_none valid
  rw [← List.length_pos_iff, List.length_append]
  omega

variable {P : Option Item → Option Item → Kid → Prop} {low high : Option Item}

theorem Spine.length_le_bytes (law : LawfulIsamc m) (pos : Kid → Nat) (spine : Spine Item Kid) :
    spine.toList.length ≤ (spine.bytes law pos).length := by
  induction spine with
  | last kid => exact encodePtr_length_pos _
  | cons kid sep rest ih =>
    have pointer := encodePtr_length_pos (pos kid)
    simp only [toList, bytes, List.length_cons, List.length_append]
    omega

theorem decodeEntries_tailBytes (pos : Kid → Nat) {spine : Spine Item Kid}
    (formed : spine.Formed law.Valid P low high) {fuel : Nat}
    (enough : spine.toList.length ≤ fuel) :
    ∃ entries, decodeEntries m fuel (spine.tailBytes law pos) = some entries ∧
      pos spine.head :: entries.map Prod.snd = spine.toList.map pos := by
  induction spine generalizing low fuel with
  | last kid =>
    obtain ⟨fuel, rfl⟩ := Nat.exists_eq_add_of_le' enough
    exact ⟨[], rfl, rfl⟩
  | cons kid sep rest ih =>
    obtain ⟨⟨valid, -, -⟩, -, rest_formed⟩ := formed
    obtain ⟨fuel, rfl⟩ := Nat.exists_eq_add_of_le' (Nat.one_le_of_lt enough)
    obtain ⟨entries, decoded, kids⟩ := ih rest_formed (Nat.le_of_succ_le_succ enough)
    refine ⟨(sep, pos rest.head) :: entries, ?_, ?_⟩
    · have nonempty := separator_ne_nil valid (rest.bytes law pos)
      change decodeEntries m (fuel + 1) (law.piece none sep ++ rest.bytes law pos) = _
      rw [decodeEntries, if_neg nonempty, decodeEntry_bytes valid]
      simp only [bind_eq_bind, bind_some, decoded]
    · change pos kid :: (pos rest.head :: entries.map Prod.snd) = _
      rw [kids]
      rfl

end

/-- A block in memory that is the root of a tree: it differs from disk only when it is dirty. -/
structure Held (view : Nat → Option DiskBlock) (p : Block Code) {h : Nat} (t : Tree Item h) :
    Prop where
  pos : p.pos = t.pos
  cat : p.cat = t.pos % catMax
  leaf : p.leaf = Tree.isLeaf h
  kept : p.deleted = false
  bytes : p.bytes = t.bytes law
  kids : t.KidsStored law view
  count : (p.dirty = true ∧ t.count = p.noItems) ∨
    (p.dirty = false ∧ p.noItems = readBack t.count ∧
      view t.pos = some (.used (Tree.isLeaf h) (encodePtr t.count) (t.bytes law)))

variable {law layout} {b : Isamb} {own frame : Multiset Nat} {low high : Option Item} {h : Nat}
  {t : Tree Item h} {p : Block Code}

theorem openBlock_stored (sound : Sound layout b (own + t.blocks)) (stored : t.Stored law b.view) :
    ∃ p b', openBlock m b t.pos = .ok (p, b') ∧ Held law b'.view p t ∧ p.dirty = false ∧
      p.noItems = readBack t.count ∧ b'.view = b.view ∧ Sound layout b' (own + t.blocks) := by
  have mem : t.pos ∈ own + t.blocks := Multiset.mem_add.mpr (.inr t.pos_mem_blocks)
  obtain ⟨on_disk, kids⟩ := stored_iff.mp stored
  obtain ⟨b', opened, sound', view_eq⟩ := openBlock_spec (m := m) sound mem on_disk
  refine ⟨_, b', opened, ?_, rfl, rfl, view_eq, sound'⟩
  rw [view_eq]
  exact ⟨rfl, rfl, rfl, rfl, rfl, kids, .inr ⟨rfl, rfl, on_disk⟩⟩

/-- `check_block` accepts a node in order. -/
theorem checkBlock_formed (shaped : Shaped layout b) (p_cat : p.cat = t.pos % catMax)
    (leaf : p.leaf = isLeaf h) (p_bytes : p.bytes = t.bytes law)
    (formed : t.Formed law layout low high) : checkBlock m b p = true := by
  cases h with
  | zero => simp [checkBlock, leaf, isLeaf]
  | succ h =>
    have node : Tree.NodeFormed law layout pos (Tree.Formed law layout) low high t := formed
    have cat : p.cat = layout.btree := p_cat.trans node.cat
    have bytes : p.bytes = (Node.kids t).bytes law pos := p_bytes
    have size : (b.file p.cat).head.blockSize = 4 * layout.quater + 8 := by
      rw [cat, shaped.blockSize _ layout.btree_lt, layout.size_btree_eq]
    have fits := node.fits
    rw [layout.room_btree] at fits
    have kids_le := (Node.kids t).length_le_bytes law pos
    obtain ⟨entries, decoded, kids⟩ :=
      decodeEntries_tailBytes pos node.kids
        (show _ ≤ (b.file p.cat).head.blockSize by omega)
    have all_cat : ∀ kid ∈ (Node.kids t).toList, pos kid % catMax = p.cat := by
      intro kid mem
      obtain ⟨_, _, kid_cat, -⟩ := node.kids.of_mem mem
      exact kid_cat.trans cat.symm
    simp only [checkBlock, children, bytes, decodePtr_bytes, decoded, bind_eq_bind,
      bind_some, kids]
    simpa using .inr all_cat

theorem closeBlock_held (sound : Sound layout b (own + t.blocks)) (held : Held law b.view p t)
    (formed : t.Formed law layout low high) :
    ∃ b', closeBlock m b p = .ok b' ∧ Sound layout b' (own + t.blocks) ∧ t.Stored law b'.view ∧
      ∀ pos ∈ own, b'.view pos = b.view pos := by
  have pos_mem : t.pos ∈ own + t.blocks := Multiset.mem_add.mpr (.inr t.pos_mem_blocks)
  rcases held.count with ⟨dirty, count⟩ | ⟨clean, -, on_disk⟩
  · obtain ⟨b', closed, sound', view_eq⟩ := closeBlock_dirty sound (p := p)
      (held.pos ▸ pos_mem) held.kept dirty
      (checkBlock_formed sound.toShaped held.cat held.leaf held.bytes formed)
    rw [held.pos, held.leaf, held.bytes, ← count] at view_eq
    refine ⟨b', closed, sound', stored_iff.mpr ⟨by simp [view_eq], ?_⟩, ?_⟩
    · refine held.kids.congr sound.nodup fun pos _ differ => ?_
      rw [view_eq, Function.update_of_ne differ]
    · intro pos mem
      rw [view_eq, Function.update_of_ne]
      rintro rfl
      exact Multiset.disjoint_left.mp (Multiset.nodup_add.mp sound.nodup).2.2 mem
        t.pos_mem_blocks
  · exact ⟨b, closeBlock_clean held.kept clean, sound,
      stored_iff.mpr ⟨on_disk, held.kids⟩, fun _ _ => rfl⟩

/-- A change elsewhere leaves a block in memory valid. -/
theorem Held.congr {view view' : Nat → Option DiskBlock} (held : Held law view p t)
    (same : ∀ pos ∈ t.blocks, view' pos = view pos) (nodup : t.blocks.Nodup) :
    Held law view' p t := by
  refine { held with kids := ?_, count := ?_ }
  · have alone : (0 + t.blocks).Nodup := (zero_add t.blocks).symm ▸ nodup
    exact held.kids.congr alone fun pos mem _ => same pos mem
  · rcases held.count with dirty | ⟨clean, noItems, on_disk⟩
    · exact .inl dirty
    · exact .inr ⟨clean, noItems, (same _ t.pos_mem_blocks).trans on_disk⟩

def spBlocks (sp : Option (Item × Tree Item h)) : Multiset Nat :=
  (sp.map fun sibling => sibling.2.blocks).getD 0

def spItems (sp : Option (Item × Tree Item h)) : List Item :=
  (sp.map fun sibling => sibling.2.items).getD []

/-- Where the items of a tree end when it has got a new sibling. -/
def spBound (high : Option Item) (sp : Option (Item × Tree Item h)) : Option Item :=
  (sp.map Prod.fst).or high

def HeldSibling (law : LawfulIsamc m) (view : Nat → Option DiskBlock) :
    Option (Block Code × Item) → Option (Item × Tree Item h) → Prop
  | none, none => True
  | some (p, sep), some (sep', t) => sep = sep' ∧ p.dirty = true ∧ Held law view p t
  | _, _ => False

theorem HeldSibling.none_iff {view : Nat → Option DiskBlock} {block : Option (Block Code × Item)}
    {sp : Option (Item × Tree Item h)} (held : HeldSibling law view block sp) :
    block = none ↔ sp = none := by
  rcases block with _ | block <;> rcases sp with _ | sp
  · exact ⟨fun _ => rfl, fun _ => rfl⟩
  · exact held.elim
  · exact held.elim
  · exact ⟨nofun, nofun⟩

/-- What a descent with the stream `ops` has made of a tree with items `old` and counter
`noItems`. -/
structure Grown (law : LawfulIsamc m) (layout : Layout) (frame : Multiset Nat)
    (low high : Option Item) (b : Isamb) (ops : List (Item × Nat)) (old : List Item)
    (noItems : Int) (r : Descent Item Code) {h : Nat} (t : Tree Item h)
    (sp : Option (Item × Tree Item h)) (done todo : List (Item × Nat)) : Prop where
  sound : Sound layout r.b (frame + (t.blocks + spBlocks sp))
  frame : ∀ pos ∈ frame, r.b.view pos = b.view pos
  held : Held law r.b.view r.p t
  sibling : HeldSibling law r.b.view r.sp sp
  formed : t.Formed law layout low (spBound high sp)
  split : ∀ sep s, sp = some (sep, s) →
    (law.Valid sep ∧ Beyond low sep ∧ Below high sep) ∧ s.Formed law layout (some sep) high ∧
      s.pos % catMax = layout.btree ∧ t.pos % catMax = layout.btree
  ops : done ++ todo = ops
  progress : done ≠ []
  reach : ∀ op ∈ done, Below high op.1
  applied : Applied done old (t.items ++ spItems sp)
  remains : Remains done todo r.stream r.more
  count : r.p.noItems + ((r.sp.map fun s => s.1.noItems).getD 0) - noItems =
    ((t.items ++ spItems sp).length : Int) - old.length
  occupied : sp ≠ none → t.items ++ spItems sp ≠ []

end Zebra.Isamb
