import Zebra.Isamb.Descent

/-!
# `insert_leaf`

A leaf keeps its block, moves to a larger category when it outgrows its own, or is split in the
largest category.  Both halves of a split fit, whatever was inserted.
-/

namespace Zebra.Isamb

open List

variable {Item Code : Type} [LinearOrder Item] {m : IsamcM Item Code} {law : LawfulIsamc m}
  {layout : Layout} {b : Isamb} {frame : Multiset Nat} {low high : Option Item}

/-- What a descent may assume of the stream. -/
structure Ready (law : LawfulIsamc m) (low high : Option Item) (stream : Stream Item)
    (old : List Item) : Prop where
  ops : ValidOps law.Valid stream.all
  present : Present high stream.all old
  above : Above low stream.item
  below : Below high stream.item

variable {stream : Stream Item} {old : List Item}

theorem Ready.all_above
    (ready : Ready law low high stream old) {op : Item × Nat} (mem : op ∈ stream.all) :
    Above low op.1 := by
  rcases mem_cons.mp mem with rfl | mem
  · exact ready.above
  · have lt := (pairwise_cons.mp ready.ops.sorted).1 op mem
    exact fun u u_mem => (ready.above u u_mem).trans lt.le

theorem InOrder.applied {new : List Item} {done todo : List (Item × Nat)}
    (ready : Ready law low high stream old)
    (old_ok : InOrder law low high old) (ops : done ++ todo = stream.all)
    (reach : ∀ op ∈ done, Below high op.1) (applied : Applied done old new)
    (sorted : new.Pairwise (· < ·)) : InOrder law low high new := by
  refine ⟨sorted, fun x mem => ?_⟩
  rcases (applied x).mp mem with ⟨old_mem, -⟩ | op_mem
  · exact old_ok.bounds x old_mem
  · have all_mem : (x, 1) ∈ stream.all := ops ▸ mem_append_left todo op_mem
    exact ⟨ready.ops.valid _ all_mem, ready.all_above all_mem, reach _ op_mem⟩

/-- `categoryFor` finds a category with room, or takes the last one. -/
theorem categoryFor_spec (shaped : Shaped layout b) (size : Nat) :
    b.categoryFor size < layout.noCat ∧
      (b.categoryFor size = layout.btree ∨ size ≤ layout.room (b.categoryFor size)) := by
  have last : b.noCat - 1 = layout.btree := by rw [shaped.noCat]; rfl
  unfold categoryFor
  cases found : (List.range b.noCat).find? fun i => decide (size ≤ b.blockMax i) with
  | none => exact ⟨by simpa [last] using layout.btree_lt, .inl (by simpa using last)⟩
  | some cat =>
    have cat_lt : cat < layout.noCat := by
      have mem := List.mem_of_find?_eq_some found
      rwa [mem_range, shaped.noCat] at mem
    have room : size ≤ b.blockMax cat := by simpa using List.find?_some found
    rw [shaped.blockMax cat cat_lt] at room
    exact ⟨by simpa using cat_lt, .inr (by simpa using room)⟩

/-- The block `insert_leaf` starts from, if any. -/
inductive LeafStart (law : LawfulIsamc m) (layout : Layout) (view : Nat → Option DiskBlock) :
    Option (Block Code) → List Item → Multiset Nat → Prop
  | fresh : LeafStart law layout view none [] 0
  | opened {p : Block Code} {t : Tree Item 0} (held : Held law view p t)
      (clean : p.dirty = false) (fits : (law.codes none t.items).length ≤ layout.room p.cat) :
      LeafStart law layout view (some p) t.items t.blocks

/-- The block that takes a leaf's new contents. -/
structure LeafReady (layout : Layout) (frame : Multiset Nat) (b : Isamb)
    (p : Option (Block Code)) (size : Nat) (dirty : Bool) (q : Block Code) (b' : Isamb) : Prop where
  sound : Sound layout b' (frame + {q.pos})
  frame : ∀ pos ∈ frame, b'.view pos = b.view pos
  cat : q.cat = q.pos % catMax
  leaf : q.leaf = true
  kept : q.deleted = false
  fits : q.cat = layout.btree ∨ size ≤ layout.room q.cat
  clean : q.dirty = false →
    dirty = false ∧ ∃ old, p = some old ∧ q.pos = old.pos ∧ b'.view old.pos = b.view old.pos
  stay : ∀ old, p = some old → old.cat = layout.btree →
    q.pos = old.pos ∧ b'.view old.pos = b.view old.pos

/-- `insert_leaf` finds a block for the new contents. -/
theorem leafBlock_spec {p : Option (Block Code)} {blocks : Multiset Nat}
    (start : LeafStart law layout b.view p old blocks) (sound : Sound layout b (frame + blocks))
    (s : LeafState Item Code) :
    leafBlock m b p s = .error .exit ∨
      ∃ q b', leafBlock m b p s = .ok (q, b') ∧
        LeafReady layout frame b p s.buf.size s.dirty q b' := by
  have fresh {b₁ : Isamb} (sound₁ : Sound layout b₁ frame)
      (same : ∀ pos ∈ frame, b₁.view pos = b.view pos)
      (moved : ∀ old, p = some old → old.cat ≠ layout.btree) :
      newBlock m b₁ true (b₁.categoryFor s.buf.size) = .error .exit ∨
        ∃ q b', newBlock m b₁ true (b₁.categoryFor s.buf.size) = .ok (q, b') ∧
          LeafReady layout frame b p s.buf.size s.dirty q b' := by
    obtain ⟨cat_lt, fits⟩ := categoryFor_spec sound₁.toShaped s.buf.size
    rcases newBlock_spec (m := m) sound₁ true cat_lt with full | ⟨pos, b', done, pos_cat, view_eq,
      sound'⟩
    · exact .inl full
    · refine .inr ⟨_, b', done, ?_, ?_, pos_cat.symm, rfl, rfl, fits, nofun, ?_⟩
      · rwa [add_comm, Multiset.singleton_add]
      · intro other mem
        rw [view_eq, same other mem]
      · intro old p_eq cat
        exact absurd cat (moved old p_eq)
  cases start with
  | fresh =>
    rw [add_zero] at sound
    exact fresh sound (fun _ _ => rfl) nofun
  | @opened p t held clean fits =>
    have cat_lt : p.cat < layout.noCat := by
      rw [held.cat]
      exact sound.own_cat _ (Multiset.mem_add.mpr (.inr t.pos_mem_blocks))
    have last : b.noCat - 1 = layout.btree := by rw [sound.noCat]; rfl
    have blocks_eq : t.blocks = {t.pos} := rfl
    by_cases moves : p.cat ≠ b.noCat - 1 ∧ b.blockMax p.cat < s.buf.size
    · rw [blocks_eq, add_comm, Multiset.singleton_add] at sound
      obtain ⟨b₁, closed, sound₁, same⟩ := closeBlock_deleted (m := m) sound
        (p := { p with dirty := p.dirty || s.dirty, deleted := true }) held.pos held.cat rfl
      have moved : ∀ old, some p = some old → old.cat ≠ layout.btree := by
        rintro old ⟨⟩
        exact last ▸ moves.1
      have result := fresh sound₁ same moved
      simp only [leafBlock, if_pos moves, closed]
      exact result
    · simp only [leafBlock, if_neg moves]
      refine .inr ⟨_, b, rfl, ?_, fun _ _ => rfl, held.pos ▸ held.cat, held.leaf, held.kept,
        ?_, ?_, ?_⟩
      · rw [held.pos, ← blocks_eq]
        exact sound
      · by_cases at_last : p.cat = b.noCat - 1
        · exact .inl (at_last.trans last)
        · refine .inr ?_
          rw [← sound.blockMax p.cat cat_lt]
          exact Nat.le_of_not_lt fun less => moves ⟨at_last, less⟩
      · intro both_clean
        have s_clean : s.dirty = false := by simpa [clean] using both_clean
        exact ⟨s_clean, p, rfl, rfl, rfl⟩
      · rintro old ⟨⟩ -
        exact ⟨rfl, rfl⟩

/-- The first half of an overfull leaf and what follows it. -/
theorem cut_bytes {quater : Nat} {out : List Item} {s : LeafState Item Code}
    (buffered : Buffered law quater (3 * quater) out s) {cut : Cut Item} {front back : List Item}
    (out_eq : out = front ++ cut.item :: back) (half1 : cut.half1 = (law.codes none front).length)
    (half2 : cut.half2 = cut.half1 + (law.piece (lastItem none front) cut.item).length) :
    s.buf.bytes.take cut.half1 = law.codes none front ∧
      (m.encode m.reset cut.item).2 ++ s.buf.bytes.drop cut.half2 =
        law.codes none (cut.item :: back) := by
  have bytes : s.buf.bytes = law.codes none front ++
      (law.piece (lastItem none front) cut.item ++ law.codes (some cut.item) back) := by
    rw [buffered.bytes, out_eq, law.codes_append, law.codes_cons]
  constructor
  · rw [bytes, half1, take_left']
    rfl
  · rw [bytes, half2, half1, ← append_assoc, drop_left' (by simp)]
    rfl

theorem leaf_formed {pos : Nat} {items : List Item} (cat_lt : pos % catMax < layout.noCat)
    (fits : (law.codes none items).length ≤ layout.room (pos % catMax))
    (ok : InOrder law low high items) : (Tree.leaf pos items).Formed law layout low high :=
  ⟨cat_lt, fits, ok.sorted, ok.bounds⟩

/-- `insert_leaf`: the new contents stay in one leaf or are split over two. -/
theorem insertLeaf_spec [suits : Suits law layout] {p : Option (Block Code)} {blocks : Multiset Nat}
    (start : LeafStart law layout b.view p old blocks)
    (sound : Sound layout b (frame + blocks)) (old_ok : InOrder law low high old)
      (ready : Ready law low high stream old)
    (high_valid : ∀ u ∈ high, law.Valid u) :
    insertLeaf m b p stream high = .error .exit ∨
      ∃ r t sp done todo, insertLeaf m b p stream high = .ok r ∧
        Grown (h := 0) law layout frame low high b stream.all old
          ((p.map Block.noItems).getD 0) r t sp done todo ∧
        ∀ q, p = some q → q.cat = layout.btree →
          t.pos = q.pos ∧ r.b.view q.pos = b.view q.pos := by
  have quater_ge := layout.quater_ge
  have codeMax_lt := suits.codeMax_lt
  have restart_le := suits.restart_le
  have p_bytes : (p.map Block.bytes).getD [] = law.codes none old := by
    cases start with
    | fresh => rfl
    | opened held clean fits => exact held.bytes
  have p_count : (p.map Block.noItems).getD 0 = (old.length : Int) := by
    cases start with
    | fresh => rfl
    | @opened p t held clean fits =>
      rcases held.count with ⟨dirty, -⟩ | ⟨-, noItems, -⟩
      · rw [clean] at dirty
        cases dirty
      · change p.noItems = _
        rw [noItems]
        exact congrArg Nat.cast (readBack_natCast _)
  have old_le : (law.codes none old).length ≤ 4 * layout.quater := by
    cases start with
    | fresh => exact Nat.zero_le _
    | @opened p t held clean fits =>
      refine fits.trans (layout.room_le ?_)
      rw [held.cat]
      exact sound.own_cat _ (Multiset.mem_add.mpr (.inr t.pos_mem_blocks))
  obtain ⟨s, out, done, todo, filled_run, ops, progress, filled, remains, reach⟩ :=
    fillLeaf_spec sound.toShaped p stream high_valid p_bytes old_le old_ok.sorted
      (fun y mem => (old_ok.bounds y mem).1) (fun y mem => (old_ok.bounds y mem).2.2) ready.ops
      ready.present ready.below
  have out_ok := old_ok.applied ready ops reach filled.applied filled.sorted
  rcases leafBlock_spec start sound s with full | ⟨q, b', ready_run, block⟩
  · left
    simp only [insertLeaf, filled_run, full, bind, Except.bind]
  have q_lt : q.cat < layout.noCat := by
    rw [block.cat]
    exact block.sound.own_cat _ (by simp)
  have q_max := block.sound.blockMax q.cat q_lt
  by_cases overfull : b'.blockMax q.cat < s.buf.size
  · -- the leaf is split
    have q_btree : q.cat = layout.btree := by
      refine block.fits.resolve_right fun fits => ?_
      rw [q_max] at overfull
      omega
    have room : b'.blockMax q.cat = 4 * layout.quater := by
      rw [q_max, q_btree, layout.room_btree]
    obtain ⟨cut, cut_eq⟩ : ∃ cut, s.cut = some cut := by
      refine Option.ne_none_iff_exists'.mp fun uncut => ?_
      have before := filled.uncut uncut
      omega
    obtain ⟨front, back, out_eq, half1, half2, noItems1, half1_gt, half1_le⟩ :=
      filled.cut cut cut_eq
    obtain ⟨first_bytes, second_bytes⟩ := cut_bytes filled.toBuffered out_eq half1 half2
    rcases newBlock_spec (m := m) block.sound true q_lt with full | ⟨pos, b'', new_run, pos_cat,
      view_eq, sound''⟩
    · left
      simp only [insertLeaf, filled_run, ready_run, bind, Except.bind, if_pos overfull,
        cut_eq, full]
    have room'' : b''.blockMax q.cat = 4 * layout.quater := by
      rw [sound''.blockMax q.cat q_lt, q_btree, layout.room_btree]
    have order : (front ++ cut.item :: back).Pairwise (· < ·) := out_eq ▸ filled.sorted
    obtain ⟨front_sorted, back_sorted, apart⟩ := pairwise_append.mp order
    have bounds : ∀ x ∈ front ++ cut.item :: back,
        law.Valid x ∧ Above low x ∧ Below high x := out_eq ▸ out_ok.bounds
    have item_ok := bounds cut.item (by simp)
    have front_ne : front ≠ [] := by
      rintro rfl
      simp at half1
      omega
    have beyond : Beyond low cut.item := by
      obtain ⟨x, front', rfl⟩ := exists_cons_of_ne_nil front_ne
      have lt := apart x (by simp) cut.item (by simp)
      exact fun u mem => ((bounds x (by simp)).2.1 u mem).trans_lt lt
    have first_fits : (law.codes none front).length ≤ 4 * layout.quater := by omega
    have second_fits : (law.codes none (cut.item :: back)).length ≤ 4 * layout.quater := by
      have whole := filled.size
      have size_le := filled.size_le
      have last_valid : ∀ y ∈ lastItem none front, law.Valid y :=
        fun y last => (bounds y (by simp [mem_of_lastItem last])).1
      have cut_le := law.piece_restart last_valid item_ok.1
      rw [out_eq, law.codes_append, law.codes_cons, length_append, length_append]
        at whole
      rw [law.codes_cons, length_append]
      omega
    let r : Descent Item Code :=
      { b := b''
        p := { q with bytes := law.codes none front, noItems := cut.noItems1, dirty := true }
        sp := some ({ pos, cat := q.cat, leaf := true, dirty := true, deleted := false,
                      offset := 0, noItems := (s.noItems - cut.noItems1 : Nat),
                      bytes := law.codes none (cut.item :: back),
                      decodeClientData := m.reset }, cut.item)
        stream := s.stream
        more := s.more }
    have out_length : s.noItems = front.length + (back.length + 1) := by
      rw [filled.noItems, out_eq, length_append, length_cons]
    have second_count : ((s.noItems - cut.noItems1 : Nat) : Int) = (back.length + 1 : Nat) := by
      rw [noItems1, out_length]
      omega
    refine .inr ⟨r, .leaf q.pos front, some (cut.item, .leaf pos (cut.item :: back)), done,
      todo, ?_, ?_, ?_⟩
    · simp only [insertLeaf, filled_run, ready_run, bind, Except.bind, if_pos overfull, cut_eq,
        new_run, first_bytes, second_bytes, room'']
      rw [if_neg (by omega)]
    · refine ⟨?_, ?_, ?_, ⟨rfl, rfl, ?_⟩, ?_, ?_, ops, progress, reach, ?_, remains, ?_,
        fun _ => ?_⟩
      · have same : frame + (({q.pos} : Multiset Nat) + {pos}) = pos ::ₘ (frame + {q.pos}) := by
          rw [← add_assoc, add_comm, Multiset.singleton_add]
        exact same ▸ sound''
      · intro other mem
        exact (congrFun view_eq other).trans (block.frame other mem)
      · exact ⟨rfl, block.cat, block.leaf, block.kept, rfl, trivial,
          .inl ⟨rfl, congrArg Nat.cast noItems1.symm⟩⟩
      · exact ⟨rfl, pos_cat.symm, rfl, rfl, rfl, trivial, .inl ⟨rfl, second_count.symm⟩⟩
      · refine leaf_formed (block.cat ▸ q_lt) ?_ ⟨front_sorted, fun x mem => ?_⟩
        · rw [← block.cat, q_btree, layout.room_btree]
          exact first_fits
        · have x_ok := bounds x (by simp [mem])
          exact ⟨x_ok.1, x_ok.2.1, below_some.mpr (apart x mem cut.item (by simp))⟩
      · rintro _ _ ⟨⟩
        refine ⟨⟨item_ok.1, beyond, item_ok.2.2⟩,
          leaf_formed (pos_cat ▸ q_lt) ?_ ⟨back_sorted, fun x mem => ?_⟩, pos_cat.trans q_btree,
          block.cat ▸ q_btree⟩
        · rw [pos_cat, q_btree, layout.room_btree]
          exact second_fits
        · have x_ok := bounds x (mem_append_right front mem)
          refine ⟨x_ok.1, above_some.mpr ?_, x_ok.2.2⟩
          rcases mem_cons.mp mem with rfl | mem
          · exact le_rfl
          · exact ((pairwise_cons.mp back_sorted).1 x mem).le
      · exact out_eq ▸ filled.applied
      · rw [p_count]
        change (cut.noItems1 : Int) + ((s.noItems - cut.noItems1 : Nat) : Int) - old.length =
          ((front ++ cut.item :: back).length : Int) - old.length
        rw [second_count, noItems1, length_append, length_cons]
        push_cast
        rfl
      · exact append_ne_nil_of_right_ne_nil front (cons_ne_nil _ _)
    · intro old_p p_eq cat
      obtain ⟨same_pos, same_view⟩ := block.stay old_p p_eq cat
      exact ⟨same_pos, (congrFun view_eq _).trans same_view⟩
  · -- the new contents fit
    let r : Descent Item Code :=
      { b := b', p := { q with bytes := s.buf.bytes, noItems := s.noItems }, sp := none
        stream := s.stream, more := s.more }
    refine .inr ⟨r, .leaf q.pos out, none, done, todo, ?_, ?_, block.stay⟩
    · simp only [insertLeaf, filled_run, ready_run, bind, Except.bind, if_neg overfull, r]
    · refine ⟨?_, block.frame, ⟨rfl, block.cat, block.leaf, block.kept, filled.bytes, trivial, ?_⟩,
        trivial, ?_, nofun, ops, progress, reach, ?_, remains, ?_, fun split => absurd rfl split⟩
      · change Sound layout b' (frame + ({q.pos} + 0))
        rw [add_zero]
        exact block.sound
      · cases dirty : q.dirty with
        | true => exact .inl ⟨rfl, congrArg Nat.cast filled.noItems.symm⟩
        | false =>
          obtain ⟨s_clean, old_p, p_eq, same_pos, same_view⟩ := block.clean dirty
          have out_old : out = old := filled.clean s_clean
          cases start with
          | fresh => cases p_eq
          | @opened p t held clean fits =>
            cases p_eq
            have on_disk := (held.count.resolve_left fun dirty => by simp [clean] at dirty).2.2
            refine .inr ⟨rfl, ?_, ?_⟩
            · change (s.noItems : Int) = _
              rw [filled.noItems]
              exact congrArg Nat.cast (readBack_natCast out.length).symm
            · have at_pos : b'.view q.pos = b.view t.pos := by
                rw [same_pos, same_view, held.pos]
              rw [out_old]
              exact at_pos.trans on_disk
      · refine leaf_formed (block.cat ▸ q_lt) ?_ out_ok
        have fits := Nat.le_of_not_lt overfull
        rwa [q_max, filled.size, block.cat] at fits
      · change Applied done old (out ++ [])
        rw [append_nil]
        exact filled.applied
      · rw [p_count]
        change (s.noItems : Int) + 0 - old.length = ((out ++ []).length : Int) - old.length
        rw [filled.noItems, append_nil, add_zero]

end Zebra.Isamb
