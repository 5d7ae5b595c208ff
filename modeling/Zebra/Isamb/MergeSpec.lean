import Zebra.Isamb.InsertSub

/-!
# `isamb_merge`

A merge is a number of rounds, each of which takes operations off the stream and applies them to the
list; the root's counter is that of the items in the list throughout.  Unlinking a tree gives its
blocks back.
-/

namespace Zebra.Isamb

open List
open Multiset (mem_add nodup_add singleton_add)

variable {Item Code : Type} [LinearOrder Item] {m : IsamcM Item Code} {law : LawfulIsamc m}
  {layout : Layout} {b : Isamb} {frame : Multiset Nat} {h : Nat}

omit [LinearOrder Item] in
theorem foldl_unlink (unlink : Isamb → Nat → Except Fault Isamb)
    (Ok : (Nat → Option DiskBlock) → Tree Item h → Prop)
    (congr : ∀ {view view' t}, Ok view t → (∀ pos ∈ Tree.blocks t, view' pos = view pos) →
      Ok view' t)
    (spec : ∀ (b : Isamb) (frame : Multiset Nat) (t : Tree Item h),
      Sound layout b (frame + t.blocks) → Ok b.view t →
      ∃ b', unlink b t.pos = .ok b' ∧ Sound layout b' frame ∧
        ∀ pos ∈ frame, b'.view pos = b.view pos)
    (kids : List (Tree Item h)) (sound : Sound layout b (frame + kidsBlocks kids))
    (ok : ∀ kid ∈ kids, Ok b.view kid) :
    ∃ b', (kids.map Tree.pos).foldlM unlink b = .ok b' ∧ Sound layout b' frame ∧
      ∀ pos ∈ frame, b'.view pos = b.view pos := by
  induction kids generalizing b with
  | nil => exact ⟨b, rfl, by simpa [kidsBlocks] using sound, fun _ _ => rfl⟩
  | cons kid kids ih =>
    have split : frame + kidsBlocks (kid :: kids) = frame + kidsBlocks kids + kid.blocks := by
      simp only [kidsBlocks, map_cons, sum_cons]
      abel
    rw [split] at sound
    obtain ⟨b₁, run₁, sound₁, same₁⟩ := spec b _ kid sound (ok kid mem_cons_self)
    have rest_ok : ∀ other ∈ kids, Ok b₁.view other := by
      intro other mem
      refine congr (ok other (mem_cons_of_mem kid mem)) fun pos pos_mem => same₁ pos ?_
      have le : other.blocks ≤ kidsBlocks kids :=
        single_le_sum (fun _ _ => Multiset.zero_le _) _ (mem_map.mpr ⟨other, mem, rfl⟩)
      exact mem_add.mpr (.inr (Multiset.mem_of_le le pos_mem))
    obtain ⟨b₂, run₂, sound₂, same₂⟩ := ih sound₁ rest_ok
    refine ⟨b₂, ?_, sound₂, fun pos mem => ?_⟩
    · rw [map_cons, foldlM_cons, run₁]
      exact run₂
    · rw [same₂ pos mem, same₁ pos (mem_add.mpr (.inl mem))]

def InPlace (law : LawfulIsamc m) (layout : Layout) (view : Nat → Option DiskBlock)
    (t : Tree Item h) : Prop :=
  t.Stored law view ∧ ∃ low high, t.Formed law layout low high

/-- `isamb_unlink` puts all blocks of a tree on the free lists. -/
theorem unlink_spec {fuel : Nat} (enough : h < fuel) (b : Isamb) (frame : Multiset Nat)
    (t : Tree Item h) (sound : Sound layout b (frame + t.blocks))
    (placed : InPlace law layout b.view t) :
    ∃ b', unlink m fuel b t.pos = .ok b' ∧ Sound layout b' frame ∧
      ∀ pos ∈ frame, b'.view pos = b.view pos := by
  induction h generalizing fuel b frame with
  | zero =>
    obtain ⟨fuel, rfl⟩ := Nat.exists_eq_add_of_le' enough
    have pos_ne := sound.ne_zero (mem_add.mpr (.inr t.pos_mem_blocks))
    obtain ⟨p, b₁, opened, held, -, -, view₁, sound₁⟩ :=
      openBlock_stored (m := m) sound placed.1
    have leaf : p.leaf = true := held.leaf
    have blocks_eq : frame + t.blocks = t.pos ::ₘ frame := by
      rw [add_comm, show t.blocks = {t.pos} from rfl, singleton_add]
    rw [blocks_eq] at sound₁
    obtain ⟨b₂, closed, sound₂, same₂⟩ := closeBlock_deleted (m := m) sound₁
      (p := { p with deleted := true }) held.pos held.cat rfl
    rw [leaf] at closed
    refine ⟨b₂, ?_, sound₂, fun pos mem => (same₂ pos mem).trans (congrFun view₁ pos)⟩
    simp only [unlink, if_neg pos_ne, opened, bind, Except.bind, leaf, if_true, closed]
  | succ h ih =>
    obtain ⟨fuel, rfl⟩ := Nat.exists_eq_add_one.mpr (Nat.zero_lt_of_lt enough)
    have pos_ne := sound.ne_zero (mem_add.mpr (.inr t.pos_mem_blocks))
    obtain ⟨stored, low, high, formed⟩ := placed
    have node : Tree.NodeFormed law layout Tree.pos (Tree.Formed law layout) low high t := formed
    obtain ⟨p, b₁, opened, held, -, -, view₁, sound₁⟩ := openBlock_stored (m := m) sound stored
    have leaf : p.leaf = false := held.leaf
    have bytes : p.bytes = (Node.kids t).bytes law Tree.pos := held.bytes
    have size : (b₁.file p.cat).head.blockSize = 4 * layout.quater + 8 := by
      have cat : p.cat = layout.btree := held.cat.trans node.cat
      rw [cat, sound₁.blockSize _ layout.btree_lt, layout.size_btree_eq]
    have kids_le := (Node.kids t).length_le_bytes law Tree.pos
    have fits := node.fits
    rw [layout.room_btree] at fits
    obtain ⟨entries, decoded, kids⟩ := decodeEntries_tailBytes Tree.pos node.kids
      (show _ ≤ (b₁.file p.cat).head.blockSize by omega)
    have kids_eq : children m b₁ p = some ((Node.kids t).toList.map Tree.pos) := by
      simp only [children, bytes, decodePtr_bytes, decoded, Option.bind_eq_bind,
        Option.bind_some, kids]
    have blocks_eq : frame + t.blocks = t.pos ::ₘ frame + kidsBlocks (Node.kids t).toList := by
      rw [show t.blocks = {t.pos} + kidsBlocks (Node.kids t).toList from rfl,
        ← singleton_add]
      abel
    rw [blocks_eq] at sound₁
    obtain ⟨b₂, run₂, sound₂, same₂⟩ := foldl_unlink
      (unlink m fuel) (InPlace law layout) (fun ok same => ⟨ok.1.congr same, ok.2⟩)
      (fun b frame t => ih (by omega) b frame t) _ sound₁
      (fun kid mem => ⟨held.kids kid mem, by
        obtain ⟨low, high, -, kid_formed⟩ := node.kids.of_mem mem
        exact ⟨low, high, kid_formed⟩⟩)
    obtain ⟨b₃, closed, sound₃, same₃⟩ := closeBlock_deleted (m := m) sound₂
      (p := { p with deleted := true }) held.pos held.cat rfl
    rw [leaf] at closed
    refine ⟨b₃, ?_, sound₃, fun pos mem => ?_⟩
    · simp only [unlink, if_neg pos_ne, opened, bind, Except.bind, leaf, Bool.false_eq_true,
        if_false, kids_eq, run₂, closed]
    · rw [same₃ pos mem, same₂ pos (Multiset.mem_cons_of_mem mem), view₁]

omit [LinearOrder Item] in
theorem Tree.lt_maxLevels (t : Tree Item h) (sound : Sound layout b (frame + t.blocks)) :
    h < b.maxLevels := by
  have levels := t.lt_card_blocks
  have card := sound.card_lt
  rw [Multiset.card_add] at card
  omega

inductive IsamList (Item : Type) where
  /-- The empty list. -/
  | empty
  | tree {h : Nat} (t : Tree Item h)

namespace IsamList

def pos : IsamList Item → Nat
  | empty => 0
  | tree t => t.pos

def items : IsamList Item → List Item
  | empty => []
  | tree t => t.items

def blocks : IsamList Item → Multiset Nat
  | empty => 0
  | tree t => t.blocks

def Exact : IsamList Item → Prop
  | empty => True
  | tree t => t.Exact

end IsamList

structure Tree.Settled (law : LawfulIsamc m) (layout : Layout) (view : Nat → Option DiskBlock)
    (t : Tree Item h) : Prop where
  stored : t.Stored law view
  formed : t.Formed law layout none none
  counted : readBack t.count = t.items.length

def IsamList.Settled (law : LawfulIsamc m) (layout : Layout) (view : Nat → Option DiskBlock) :
    IsamList Item → Prop
  | empty => True
  | tree t => t.Settled law layout view

/-- A root of its own over a tree and its new sibling. -/
theorem root_formed [suits : Suits law layout] {t sibling : Tree Item h} {sep : Item} {pos : Nat}
    (count : Int) (t_small : t.pos < 2 ^ 63) (sibling_small : sibling.pos < 2 ^ 63)
    (cat : pos % catMax = layout.btree) (valid : law.Valid sep)
    (t_cat : t.pos % catMax = layout.btree) (t_formed : t.Formed law layout none (some sep))
    (sibling_cat : sibling.pos % catMax = layout.btree)
    (sibling_formed : sibling.Formed law layout (some sep) none) :
    (Tree.node pos count (.cons t sep (.last sibling))).Formed law layout none none := by
  refine ⟨cat, ?_, ⟨valid, nofun, nofun⟩, ⟨t_cat, t_formed⟩, sibling_cat, sibling_formed⟩
  have quater_ge := layout.quater_ge
  have codeMax_lt := suits.codeMax_lt
  have item_le := law.piece_le law.valid_none valid
  have first_le := encodePtr_length_le t_small
  have second_le := encodePtr_length_le sibling_small
  change (encodePtr t.pos ++ (law.piece none sep ++ encodePtr sibling.pos)).length ≤ _
  rw [layout.room_btree, length_append, length_append]
  omega

variable {done todo : List (Item × Nat)} {old : List Item}

/-- The end of a round: a split root gets a new block above it. -/
theorem growRoot_spec [Suits law layout] {ops : List (Item × Nat)} {r : Descent Item Code}
    {t : Tree Item h} {sp : Option (Item × Tree Item h)}
    (grown : Grown law layout frame none none b ops old old.length r t sp done todo) :
    growRoot m r = .error .exit ∨
      ∃ (h' : Nat) (t' : Tree Item h') (b' : Isamb), growRoot m r = .ok (t'.pos, b') ∧
        Sound layout b' (frame + t'.blocks) ∧ (∀ pos ∈ frame, b'.view pos = b.view pos) ∧
        t'.Settled law layout b'.view ∧ t'.items = t.items ++ spItems sp ∧
        (t.Exact → (∀ sep s, sp = some (sep, s) → s.Exact) → t'.Exact) := by
  have total : r.p.noItems + ((r.sp.map fun s => s.1.noItems).getD 0) =
      ((t.items ++ spItems sp).length : Int) := by
    have count := grown.count
    omega
  have sibling_held := grown.sibling
  cases split : r.sp with
  | none =>
    rw [split] at sibling_held total
    obtain rfl : sp = none := by
      cases sp with
      | none => rfl
      | some s => exact sibling_held.elim
    have sound := grown.sound
    rw [show spBlocks (none : Option (Item × Tree Item h)) = 0 from rfl, add_zero] at sound
    have items : t.items ++ spItems (none : Option (Item × Tree Item h)) = t.items :=
      append_nil _
    rw [items] at total ⊢
    obtain ⟨b', closed, sound', stored, same⟩ := closeBlock_held sound grown.held grown.formed
    refine .inr ⟨h, t, b', ?_, sound', fun pos mem => (same pos mem).trans (grown.frame pos mem),
      ⟨stored, grown.formed, ?_⟩, rfl, fun exact _ => exact⟩
    · simp only [growRoot, split, closed, bind, Except.bind, grown.held.pos]
    · have total' : r.p.noItems = (t.items.length : Int) := by simpa using total
      rcases grown.held.count with ⟨-, count⟩ | ⟨-, noItems, -⟩
      · rw [count, total', readBack_natCast]
      · exact_mod_cast noItems.symm.trans total'
  | some s =>
    obtain ⟨p2, sep⟩ := s
    rw [split] at sibling_held total
    rcases sp with _ | ⟨sep', sibling⟩
    · exact sibling_held.elim
    obtain ⟨rfl, -, held⟩ := sibling_held
    obtain ⟨⟨valid, -, -⟩, sibling_formed, sibling_cat, t_cat⟩ := grown.split sep sibling rfl
    have p_cat : r.p.cat = layout.btree := grown.held.cat.trans t_cat
    have cat_lt : r.p.cat < layout.noCat := p_cat ▸ layout.btree_lt
    rcases newBlock_spec (m := m) grown.sound false cat_lt with full | ⟨pos, b₁, new_run, pos_cat,
      view₁, sound₁⟩
    · left
      simp only [growRoot, split, full, bind, Except.bind]
    change Sound layout b₁ (pos ::ₘ (frame + (t.blocks + sibling.blocks))) at sound₁
    have swap₁ : pos ::ₘ (frame + (t.blocks + sibling.blocks)) =
        pos ::ₘ (frame + t.blocks) + sibling.blocks := by
      rw [Multiset.cons_add, add_assoc]
    have swap₂ : pos ::ₘ (frame + t.blocks) + sibling.blocks =
        pos ::ₘ (frame + sibling.blocks) + t.blocks := by
      rw [Multiset.cons_add, Multiset.cons_add, add_right_comm]
    have nodup := sound₁.nodup
    have t_small : t.pos < 2 ^ 63 := sound₁.lt_two_pow (by simp [t.pos_mem_blocks])
    have sibling_small : sibling.pos < 2 ^ 63 :=
      sound₁.lt_two_pow (by simp [sibling.pos_mem_blocks])
    have root_ok := root_formed (r.p.noItems + p2.noItems) t_small
      sibling_small (pos_cat.trans p_cat) valid t_cat grown.formed sibling_cat sibling_formed
    have t_same : ∀ other ∈ t.blocks, b₁.view other = r.b.view other := fun other _ =>
      congrFun view₁ other
    rw [swap₁] at sound₁ nodup
    have nodup' := nodup
    rw [swap₂] at nodup'
    obtain ⟨b₂, closed₂, sound₂, stored₂, same₂⟩ := closeBlock_held sound₁
      (held.congr (fun other _ => congrFun view₁ other) (nodup_add.mp nodup).2.1)
      sibling_formed
    let root : Block Code :=
      { pos, cat := r.p.cat, leaf := false, dirty := true, deleted := false, offset := 0
        noItems := r.p.noItems + p2.noItems
        bytes := encodePtr r.p.pos ++ (m.encode m.reset sep).2 ++ encodePtr p2.pos
        decodeClientData := m.reset }
    have root_bytes : root.bytes = encodePtr t.pos ++ (law.piece none sep ++
        encodePtr sibling.pos) := by
      change encodePtr r.p.pos ++ (m.encode m.reset sep).2 ++ encodePtr p2.pos = _
      rw [grown.held.pos, held.pos, append_assoc]
      rfl
    obtain ⟨b₃, closed₃, sound₃, view₃⟩ := closeBlock_dirty (m := m) sound₂ (p := root)
      (by simp [root]) rfl rfl
      (checkBlock_formed (t := Tree.node pos _ (.cons t sep (.last sibling))) sound₂.toShaped
        pos_cat.symm rfl root_bytes root_ok)
    have off_root : ∀ other ∈ frame + (t.blocks + sibling.blocks),
        b₃.view other = b₂.view other := by
      intro other mem
      rw [view₃, Function.update_of_ne]
      rintro rfl
      have fresh := (Multiset.nodup_cons.mp (swap₁ ▸ nodup)).1
      exact fresh mem
    rw [swap₂] at sound₃
    have t_held : Held law b₃.view r.p t := by
      refine grown.held.congr (fun other mem => ?_) (nodup_add.mp nodup').2.1
      rw [off_root other (by simp [mem]), same₂ other (by simp [mem]), view₁]
    obtain ⟨b₄, closed₄, sound₄, stored₄, same₄⟩ := closeBlock_held sound₃ t_held grown.formed
    have sibling_stored : sibling.Stored law b₄.view := stored₂.congr fun other mem => by
      rw [same₄ other (by simp [mem]), off_root other (by simp [mem])]
    have sum : r.p.noItems + p2.noItems = ((t.items ++ sibling.items).length : Int) := total
    have items : (Tree.node pos (r.p.noItems + p2.noItems) (.cons t sep (.last sibling))).items =
        t.items ++ sibling.items := by
      change ([t, sibling] : List (Tree Item h)).flatMap Tree.items = _
      simp
    refine .inr ⟨h + 1, .node pos (r.p.noItems + p2.noItems) (.cons t sep (.last sibling)), b₄,
      ?_, ?_, ?_, ⟨⟨?_, ?_⟩, root_ok, ?_⟩, items, ?_⟩
    · simp only [root] at closed₃
      simp only [growRoot, split, new_run, bind, Except.bind, closed₂, closed₃, closed₄]
      rfl
    · have same_account : frame + ({pos} + ([t, sibling].map Tree.blocks).sum) =
          pos ::ₘ (frame + sibling.blocks) + t.blocks := by
        rw [← singleton_add]
        simp only [map_cons, map_nil, sum_cons, sum_nil]
        abel
      exact same_account ▸ sound₄
    · intro other mem
      rw [same₄ other (by simp [mem]), off_root other (by simp [mem]), same₂ other (by simp [mem]),
        view₁, grown.frame other mem]
    · change b₄.view pos = some (.used false (encodePtr (r.p.noItems + p2.noItems))
        (encodePtr t.pos ++ (law.piece none sep ++ encodePtr sibling.pos)))
      rw [same₄ pos (by simp), view₃, ← root_bytes]
      exact Function.update_self ..
    · intro kid mem
      rcases mem_pair.mp mem with rfl | rfl
      · exact stored₄
      · exact sibling_stored
    · rw [items]
      change readBack (r.p.noItems + p2.noItems) = _
      rw [sum, readBack_natCast]
    · intro exact sibling_exact
      refine ⟨?_, fun kid mem => ?_⟩
      · rw [items]
        exact sum
      · rcases mem_pair.mp mem with rfl | rfl
        · exact exact
        · exact sibling_exact _ _ rfl

structure Round (law : LawfulIsamc m) (layout : Layout) (frame : Multiset Nat) (b : Isamb)
    (old : List Item) (r : Descent Item Code) (list : IsamList Item) (b' : Isamb)
    (done todo : List (Item × Nat)) : Prop where
  sound : Sound layout b' (frame + list.blocks)
  frame : ∀ pos ∈ frame, b'.view pos = b.view pos
  settled : list.Settled law layout b'.view
  kept : list ≠ .empty
  progress : done ≠ []
  applied : Applied done old list.items
  remains : Remains done todo r.stream r.more
  unsplit : r.sp = none → (r.p.noItems = 0 ↔ list.items = [])
  split : r.sp ≠ none → list.items ≠ []

/-- Whether a stale counter is read in the descent of a round. -/
def staleDescend (m : IsamcM Item Code) (b : Isamb) (pos : Nat) (stream : Stream Item) : Bool :=
  if pos = 0 then false
  else
    match openBlock m b pos with
    | .error _ => false
    | .ok (p, b) => staleSub m b.maxLevels b p stream none

variable {stream : Stream Item}

theorem Grown.round [Suits law layout] {r : Descent Item Code} {t : Tree Item h}
    {sp : Option (Item × Tree Item h)}
    (grown : Grown law layout frame none none b stream.all old old.length r t sp done todo)
    {b₀ : Isamb} (same : b.view = b₀.view) :
    growRoot m r = .error .exit ∨
      ∃ list' b', growRoot m r = .ok (list'.pos, b') ∧
        Round law layout frame b₀ old r list' b' done todo ∧
        (t.Exact → (∀ sep s, sp = some (sep, s) → s.Exact) → list'.Exact) := by
  rcases growRoot_spec grown with full | ⟨h', t', b', run, sound', frame', settled, items, exact⟩
  · exact .inl full
  refine .inr ⟨.tree t', b', run, ⟨sound', ?_, settled, nofun, grown.progress, ?_, grown.remains,
    ?_, ?_⟩, exact⟩
  · exact fun pos mem => (frame' pos mem).trans (congrFun same pos)
  · change Applied done old t'.items
    rw [items]
    exact grown.applied
  · intro unsplit
    have count := grown.count
    rw [unsplit, ← items] at count
    change _ ↔ t'.items = []
    rw [← length_eq_zero_iff]
    simp only [Option.map_none, Option.getD_none] at count
    omega
  · intro split
    change t'.items ≠ []
    rw [items]
    exact grown.occupied (mt grown.sibling.none_iff.mpr split)

variable {list : IsamList Item}

/-- A round applies the operations it takes off the stream. -/
theorem round_spec [Suits law layout]
    (sound : Sound layout b (frame + list.blocks)) (settled : list.Settled law layout b.view)
    (ops : ValidOps law.Valid stream.all) (present : Present none stream.all list.items) :
    descend m b list.pos stream = .error .exit ∨
      ∃ r, descend m b list.pos stream = .ok r ∧
        (growRoot m r = .error .exit ∨
          ∃ list' b' done todo, growRoot m r = .ok (list'.pos, b') ∧ done ++ todo = stream.all ∧
            Round law layout frame b list.items r list' b' done todo ∧
            (list.Exact → staleDescend m b list.pos stream = false → list'.Exact)) := by
  have ready : Ready law none none stream list.items := ⟨ops, present, nofun, nofun⟩
  cases list with
  | empty =>
    have run : descend m b (IsamList.empty : IsamList Item).pos stream =
        insertLeaf m b none stream none := if_pos rfl
    rw [run]
    rcases insertLeaf_spec .fresh sound ⟨List.Pairwise.nil, nofun⟩ ready nofun with
      full | ⟨r, t, sp, done, todo, leaf_run, grown, -⟩
    · exact .inl full
    refine .inr ⟨r, leaf_run, ?_⟩
    rcases grown.round (m := m) rfl with full | ⟨list', b', root_run, round, exact⟩
    · exact .inl full
    · exact .inr ⟨list', b', done, todo, root_run, grown.ops, round, fun _ _ =>
        exact trivial fun _ _ _ => trivial⟩
  | @tree h t =>
    obtain ⟨stored, formed, counted⟩ := settled
    have pos_ne : t.pos ≠ 0 :=
      sound.ne_zero (mem_add.mpr (.inr t.pos_mem_blocks))
    obtain ⟨p, b₁, opened, held, clean, noItems, view₁, sound₁⟩ :=
      openBlock_stored (m := m) sound stored
    have run : descend m b (IsamList.tree t).pos stream =
        insertSub m b₁.maxLevels b₁ p stream none := by
      simp only [descend, IsamList.pos, if_neg pos_ne, opened, bind, Except.bind]
    have enough : h < b₁.maxLevels := t.lt_maxLevels sound₁
    rw [run]
    rcases insertSub_spec enough b₁ frame p t none none stream sound₁ held clean formed ready nofun
      with full | ⟨r, t', sp, done, todo, sub_run, grown, -, exact⟩
    · exact .inl full
    refine .inr ⟨r, sub_run, ?_⟩
    rw [noItems, counted] at grown
    rcases grown.round (m := m) view₁ with full | ⟨list', b', root_run, round, root_exact⟩
    · exact .inl full
    refine .inr ⟨list', b', done, todo, root_run, grown.ops, round, fun t_exact fresh => ?_⟩
    simp only [staleDescend, IsamList.pos, if_neg pos_ne, opened] at fresh
    obtain ⟨t'_exact, sibling_exact⟩ := exact t_exact fresh
    exact root_exact t'_exact sibling_exact

theorem Applied.trans {Valid : Item → Prop} {next : List (Item × Nat)}
    {mid new : List Item} (first : Applied done old mid) (second : Applied next mid new)
    (ops : ValidOps Valid (done ++ todo)) (todo_sub : ∀ op ∈ todo, op ∈ next)
    (next_sub : ∀ op ∈ next, op ∈ todo ∨ op ∈ done ∧ op.2 = 1) :
    Applied (done ++ todo) old new := by
  intro x
  have delete_iff : (x, 0) ∈ next ↔ (x, 0) ∈ todo := by
    refine ⟨fun mem => ?_, todo_sub _⟩
    rcases next_sub _ mem with mem | ⟨-, mode⟩
    · exact mem
    · cases mode
  have insert_apart : (x, 1) ∈ done → (x, 0) ∉ todo := fun done_mem todo_mem =>
    lt_irrefl x (ops.lt_of_append done_mem todo_mem)
  rw [second x, first x, delete_iff]
  simp only [mem_append]
  constructor
  · rintro (⟨⟨old_mem, kept⟩ | inserted, kept'⟩ | next_mem)
    · exact .inl ⟨old_mem, fun mem => mem.elim kept kept'⟩
    · exact .inr (.inl inserted)
    · rcases next_sub _ next_mem with mem | ⟨mem, -⟩
      · exact .inr (.inr mem)
      · exact .inr (.inl mem)
  · rintro (⟨old_mem, kept⟩ | inserted | inserted)
    · exact .inl ⟨.inl ⟨old_mem, fun mem => kept (.inl mem)⟩, fun mem => kept (.inr mem)⟩
    · exact .inl ⟨.inr inserted, insert_apart inserted⟩
    · exact .inr (todo_sub _ inserted)

omit [LinearOrder Item] in
/-- The stream of the next round holds what is left to do, and at most an insertion done already. -/
theorem Remains.next_ops {more : Bool}
    (remains : Remains done todo stream more) (go : more = true) (progress : done ≠ []) :
    stream.all.Sublist (done ++ todo) ∧ stream.all.length < (done ++ todo).length ∧
      (∀ op ∈ todo, op ∈ stream.all) ∧
      ∀ op ∈ stream.all, op ∈ todo ∨ op ∈ done ∧ op.2 = 1 := by
  cases remains with
  | ended more_eq => simp [go] at more_eq
  | next _ all =>
    rw [all]
    refine ⟨sublist_append_right done todo, ?_, fun _ mem => mem, fun _ mem => .inl mem⟩
    rw [length_append]
    exact Nat.lt_add_of_pos_left (length_pos_of_ne_nil progress)
  | again _ x last all several =>
    obtain ⟨front, done_eq⟩ : ∃ front, done = front ++ [(x, 1)] :=
      List.getLast?_eq_some_iff.mp last
    rw [all, done_eq]
    rw [done_eq] at several
    refine ⟨?_, ?_, fun _ mem => mem_cons_of_mem _ mem, fun op mem => ?_⟩
    · rw [append_assoc]
      exact sublist_append_right front _
    · simp only [length_append, length_cons, length_nil] at several ⊢
      omega
    · rcases mem_cons.mp mem with rfl | mem
      · exact .inr ⟨by simp, rfl⟩
      · exact .inl mem

def lastDescent (m : IsamcM Item Code) :
    Nat → Isamb → Nat → Stream Item → Option (Descent Item Code)
  | 0, _, _, _ => none
  | fuel + 1, b, pos, stream =>
    match descend m b pos stream with
    | .error _ => none
    | .ok r =>
      match growRoot m r with
      | .error _ => none
      | .ok (pos, b) => if r.more then lastDescent m fuel b pos r.stream else some r

def staleLoop (m : IsamcM Item Code) : Nat → Isamb → Nat → Stream Item → Bool
  | 0, _, _, _ => false
  | fuel + 1, b, pos, stream =>
    staleDescend m b pos stream ||
      match descend m b pos stream with
      | .error _ => false
      | .ok r =>
        match growRoot m r with
        | .error _ => false
        | .ok (pos, b) => r.more && staleLoop m fuel b pos r.stream

/-- Whether a descent has split the root so that the first half claims to have no items. -/
def Descent.emptyHalf (r : Descent Item Code) : Bool := r.sp.isSome && decide (r.p.noItems = 0)

theorem mergeLoop_spec [Suits law layout] {fuel : Nat}
    (sound : Sound layout b (frame + list.blocks)) (settled : list.Settled law layout b.view)
    (ops : ValidOps law.Valid stream.all) (present : Present none stream.all list.items)
    (enough : stream.all.length ≤ fuel) :
    mergeLoop m fuel b list.pos stream = .error .exit ∨
      ∃ (list' : IsamList Item) (drop : Bool) (b' : Isamb),
        mergeLoop m fuel b list.pos stream = .ok (list'.pos, drop, b') ∧
        Sound layout b' (frame + list'.blocks) ∧ (∀ pos ∈ frame, b'.view pos = b.view pos) ∧
        list'.Settled law layout b'.view ∧ list' ≠ .empty ∧
        Applied stream.all list.items list'.items ∧
        (list'.items = [] → drop = true) ∧
        (drop = true → list'.items = [] ∨
          (lastDescent m fuel b list.pos stream).any Descent.emptyHalf = true) ∧
        ((lastDescent m fuel b list.pos stream).any Descent.emptyHalf = true →
          drop = true ∧ list'.items ≠ []) ∧
        (list.Exact → staleLoop m fuel b list.pos stream = false → list'.Exact) := by
  induction fuel generalizing b list stream with
  | zero => cases enough
  | succ fuel ih =>
    rcases round_spec (m := m) sound settled ops present with full | ⟨r, run, root⟩
    · left
      simp only [mergeLoop, full, bind, Except.bind]
    rcases root with full | ⟨list₁, b₁, done, todo, root_run, all, round, exact₁⟩
    · left
      simp only [mergeLoop, run, full, bind, Except.bind]
    cases more : r.more with
    | false =>
      have finished : todo = [] := by
        cases round.remains with
        | ended _ all => exact all
        | next go => simp [more] at go
        | again go => simp [more] at go
      subst finished
      rw [append_nil] at all
      refine .inr ⟨list₁, decide (r.p.noItems = 0), b₁, ?_, round.sound, round.frame,
        round.settled, round.kept, all ▸ round.applied, ?_, ?_, ?_, ?_⟩
      · simp only [mergeLoop, run, root_run, bind, Except.bind, more, Bool.false_eq_true,
          if_false]
      · intro empty
        have unsplit : r.sp = none := by_contra fun split => round.split split empty
        exact decide_eq_true ((round.unsplit unsplit).mpr empty)
      · intro drop
        by_cases unsplit : r.sp = none
        · exact .inl ((round.unsplit unsplit).mp (of_decide_eq_true drop))
        · refine .inr ?_
          have split : r.sp.isSome = true := Option.isSome_iff_ne_none.mpr unsplit
          simp only [lastDescent, run, root_run, more, Bool.false_eq_true, if_false,
            Option.any_some, Descent.emptyHalf, split, drop, Bool.and_true]
      · intro half
        simp only [lastDescent, run, root_run, more, Bool.false_eq_true, if_false,
          Option.any_some, Descent.emptyHalf, Bool.and_eq_true] at half
        exact ⟨half.2, round.split (Option.isSome_iff_ne_none.mp half.1)⟩
      · intro exact fresh
        simp only [staleLoop, Bool.or_eq_false_iff] at fresh
        exact exact₁ exact fresh.1
    | true =>
      obtain ⟨sublist, shorter, todo_sub, next_sub⟩ :=
        round.remains.next_ops more round.progress
      rw [all] at sublist shorter
      have ops₁ : ValidOps law.Valid r.stream.all :=
        ⟨ops.sorted.sublist sublist, fun op mem => ops.valid op (sublist.mem mem),
          fun op mem => ops.mode op (sublist.mem mem)⟩
      have all_ops : ValidOps law.Valid (done ++ todo) := all ▸ ops
      have present₁ : Present none r.stream.all list₁.items := by
        intro x mem below
        rcases next_sub _ mem with todo_mem | ⟨-, mode⟩
        · have old := present x (all ▸ mem_append_right done todo_mem) below
          refine (round.applied x).mpr (.inl ⟨old, fun done_mem => ?_⟩)
          exact lt_irrefl x (all_ops.lt_of_append done_mem todo_mem)
        · cases mode
      rcases ih round.sound round.settled ops₁ present₁ (by omega) with
        full | ⟨list', drop, b', loop_run, sound', frame', settled', kept', applied', drop_of,
          of_drop, half_drop, exact'⟩
      · left
        simp only [mergeLoop, run, root_run, bind, Except.bind, more, if_true, full]
      have last : lastDescent m (fuel + 1) b list.pos stream =
          lastDescent m fuel b₁ list₁.pos r.stream := by
        simp only [lastDescent, run, root_run, more, if_true]
      refine .inr ⟨list', drop, b', ?_, sound', ?_, settled', kept', ?_, drop_of,
        last ▸ of_drop, last ▸ half_drop, ?_⟩
      · simp only [mergeLoop, run, root_run, bind, Except.bind, more, if_true, loop_run]
      · exact fun pos mem => (frame' pos mem).trans (round.frame pos mem)
      · rw [← all]
        exact round.applied.trans applied' all_ops todo_sub next_sub
      · intro exact fresh
        simp only [staleLoop, run, root_run, more, Bool.true_and, Bool.or_eq_false_iff] at fresh
        exact exact' (exact₁ exact fresh.1) fresh.2

def staleMerge (m : IsamcM Item Code) (b : Isamb) (pos : Nat) (items : List (Item × Nat)) : Bool :=
  match items with
  | [] => false
  | (item, mode) :: rest => staleLoop m (rest.length + 1) b pos { item, mode, rest }

/-- Whether the last round of a merge splits the root so that its first half claims to have no
items. -/
def emptyHalfMerge (m : IsamcM Item Code) (b : Isamb) (pos : Nat) (items : List (Item × Nat)) :
    Bool :=
  match items with
  | [] => false
  | (item, mode) :: rest =>
    (lastDescent m (rest.length + 1) b pos { item, mode, rest }).any Descent.emptyHalf

/-- A merge applies its operations, unless it drops a list that is not empty. -/
theorem merge_spec [Suits law layout] {items : List (Item × Nat)}
    (sound : Sound layout b (frame + list.blocks)) (settled : list.Settled law layout b.view)
    (occupied : list.items = [] → list = .empty) (ops : ValidOps law.Valid items)
    (present : ∀ x, (x, 0) ∈ items → x ∈ list.items) :
    merge m b list.pos items = .error .exit ∨
      ∃ (list' : IsamList Item) (b' : Isamb), merge m b list.pos items = .ok (list'.pos, b') ∧
        Sound layout b' (frame + list'.blocks) ∧ (∀ pos ∈ frame, b'.view pos = b.view pos) ∧
        list'.Settled law layout b'.view ∧ (list'.items = [] → list' = .empty) ∧
        (Applied items list.items list'.items ↔ emptyHalfMerge m b list.pos items = false) ∧
        (emptyHalfMerge m b list.pos items = true → list' = .empty) ∧
        (list.Exact → staleMerge m b list.pos items = false → list'.Exact) := by
  cases items with
  | nil =>
    refine .inr ⟨list, b, rfl, sound, fun _ _ => rfl, settled, occupied, ?_, nofun,
      fun exact _ => exact⟩
    exact ⟨fun _ => rfl, fun _ => Applied.refl list.items⟩
  | cons op rest =>
    obtain ⟨item, mode⟩ := op
    have stream_ops : ValidOps law.Valid (Stream.all ⟨item, mode, rest⟩) := ops
    rcases mergeLoop_spec (m := m) sound settled stream_ops (fun x mem _ => present x mem)
        (show _ ≤ rest.length + 1 from le_rfl) with
      full | ⟨list', drop, b', run, sound', frame', settled', kept', applied, drop_of, of_drop,
        half_drop, exact⟩
    · left
      simp only [merge, full, bind, Except.bind]
    cases dropped : drop with
    | false =>
      subst dropped
      have items_ne : list'.items ≠ [] := fun empty => Bool.false_ne_true (drop_of empty)
      refine .inr ⟨list', b', ?_, sound', frame', settled', fun empty => absurd empty items_ne,
        ?_, fun half => absurd (half_drop half).1 Bool.false_ne_true, exact⟩
      · simp only [merge, run, bind, Except.bind, Bool.false_eq_true, if_false]
      · refine ⟨fun _ => ?_, fun _ => applied⟩
        exact Bool.eq_false_iff.mpr fun half => Bool.false_ne_true (half_drop half).1
    | true =>
      subst dropped
      cases list' with
      | empty => exact absurd rfl kept'
      | @tree h t =>
        have deep : h < b'.maxLevels := t.lt_maxLevels sound'
        obtain ⟨b'', unlinked, sound'', frame''⟩ := unlink_spec (m := m) deep b' frame t sound'
          ⟨settled'.stored, none, none, settled'.formed⟩
        refine .inr ⟨.empty, b'', ?_, ?_, ?_, trivial, fun _ => rfl, ?_,
          fun _ => rfl, fun _ _ => trivial⟩
        · have unlink_root : unlink m b'.maxLevels b' (IsamList.tree t).pos = .ok b'' := unlinked
          simp only [merge, run, bind, Except.bind, if_true, unlink_root]
          rfl
        · rwa [show (IsamList.empty : IsamList Item).blocks = 0 from rfl, add_zero]
        · exact fun pos mem => (frame'' pos mem).trans (frame' pos mem)
        · constructor
          · intro lost
            refine Bool.eq_false_iff.mpr fun half => (half_drop half).2 ?_
            refine eq_nil_iff_forall_not_mem.mpr fun x mem => ?_
            have in_empty : x ∈ ([] : List Item) :=
              (lost x).mpr ((applied x).mp mem)
            cases in_empty
          · intro whole
            have empty : (IsamList.tree t).items = [] :=
              (of_drop rfl).resolve_right (Bool.eq_false_iff.mp whole)
            rw [empty] at applied
            exact applied

end Zebra.Isamb
