import Mathlib.Tactic.Abel
import Zebra.Isamb.Fill

/-!
# Lists as trees of blocks

`Tree Item h` is what the blocks of a list of depth `h` hold: items in the leaves, children and
separators in the internal nodes, and the counter each internal node has on disk.  All leaves of a
tree are at the same depth by its type.  `Tree.Stored` says that the blocks of a tree are on disk,
`Tree.Formed` that items and separators are in order and every block fits.
-/

namespace Zebra.Isamb

open Multiset

/-- Children of an internal node and the separators between them. -/
inductive Spine (Item Kid : Type) where
  | last (kid : Kid)
  /-- A child, the separator behind it and the rest. -/
  | cons (kid : Kid) (sep : Item) (rest : Spine Item Kid)

structure Leaf (Item : Type) where
  /-- Its block. -/
  pos : Nat
  items : List Item

structure Node (Item Kid : Type) where
  /-- Its block. -/
  pos : Nat
  count : Int
  /-- Its children. -/
  kids : Spine Item Kid

/-- Trees of depth `h`. -/
def Tree (Item : Type) : Nat → Type
  | 0 => Leaf Item
  | h + 1 => Node Item (Tree Item h)

def Tree.leaf {Item : Type} (pos : Nat) (items : List Item) : Tree Item 0 := Leaf.mk pos items

def Tree.node {Item : Type} {h : Nat} (pos : Nat) (count : Int) (kids : Spine Item (Tree Item h)) :
    Tree Item (h + 1) := Node.mk pos count kids

section

variable {Item Kid : Type}

def Spine.toList : Spine Item Kid → List Kid
  | .last kid => [kid]
  | .cons kid _ rest => kid :: rest.toList

def Spine.head : Spine Item Kid → Kid
  | .last kid => kid
  | .cons kid _ _ => kid

/-- A spine that starts with `kid`. -/
def Spine.headed (kid : Kid) : Option (Item × Spine Item Kid) → Spine Item Kid
  | none => .last kid
  | some (sep, rest) => .cons kid sep rest

/-- A spine behind the children of `left` and their separators. -/
def Spine.plug : List (Kid × Item) → Spine Item Kid → Spine Item Kid
  | [], spine => spine
  | (kid, sep) :: left, spine => .cons kid sep (plug left spine)

theorem Spine.head_mem (spine : Spine Item Kid) : spine.head ∈ spine.toList := by
  cases spine <;> simp [head, toList]

def rightKids : Option (Item × Spine Item Kid) → List Kid
  | none => []
  | some (_, rest) => rest.toList

@[simp] theorem Spine.toList_headed (kid : Kid) (right : Option (Item × Spine Item Kid)) :
    (headed kid right).toList = kid :: rightKids right := by
  rcases right with _ | ⟨sep, rest⟩ <;> rfl

@[simp] theorem Spine.toList_plug (left : List (Kid × Item)) (spine : Spine Item Kid) :
    (plug left spine).toList = left.map Prod.fst ++ spine.toList := by
  induction left with
  | nil => rfl
  | cons entry left ih => simp [plug, toList, ih]

/-- Where the items of a child behind `left` start. -/
def leftBound (low : Option Item) : List (Kid × Item) → Option Item
  | [] => low
  | (_, sep) :: left => leftBound (some sep) left

/-- Where the items of a child in front of `right` end. -/
def rightBound (high : Option Item) : Option (Item × Spine Item Kid) → Option Item
  | none => high
  | some (sep, _) => some sep

variable [LinearOrder Item]

/-- An item is not below a lower bound, if there is one. -/
def Above (bound : Option Item) (x : Item) : Prop := ∀ u ∈ bound, u ≤ x

def Beyond (bound : Option Item) (x : Item) : Prop := ∀ u ∈ bound, u < x

/-- Children satisfy `P` between their separators, and separators increase strictly between the
bounds. -/
def Spine.Formed (Valid : Item → Prop) (P : Option Item → Option Item → Kid → Prop) :
    Option Item → Option Item → Spine Item Kid → Prop
  | low, high, .last kid => P low high kid
  | low, high, .cons kid sep rest =>
    (Valid sep ∧ Beyond low sep ∧ Below high sep) ∧ P low (some sep) kid ∧
      rest.Formed Valid P (some sep) high

/-- The part of `Spine.Formed` about what follows a child. -/
def RightFormed (Valid : Item → Prop) (P : Option Item → Option Item → Kid → Prop)
    (low high : Option Item) : Option (Item × Spine Item Kid) → Prop
  | none => True
  | some (sep, rest) =>
    (Valid sep ∧ Beyond low sep ∧ Below high sep) ∧ rest.Formed Valid P (some sep) high

/-- The part of `Spine.Formed` about the children of `left`. -/
def LeftFormed (Valid : Item → Prop) (P : Option Item → Option Item → Kid → Prop)
    (high : Option Item) : Option Item → List (Kid × Item) → Prop
  | _, [] => True
  | low, (kid, sep) :: left =>
    (Valid sep ∧ Beyond low sep ∧ Below high sep) ∧ P low (some sep) kid ∧
      LeftFormed Valid P high (some sep) left

variable {Valid : Item → Prop} {P : Option Item → Option Item → Kid → Prop}

theorem Spine.Formed.of_mem {low high : Option Item} {spine : Spine Item Kid}
    (formed : spine.Formed Valid P low high) {kid : Kid} (mem : kid ∈ spine.toList) :
    ∃ low high, P low high kid := by
  induction spine generalizing low with
  | last last =>
    obtain rfl : kid = last := by simpa [toList] using mem
    exact ⟨low, high, formed⟩
  | cons first sep rest ih =>
    obtain ⟨-, first_formed, rest_formed⟩ := formed
    rcases List.mem_cons.mp mem with rfl | mem
    · exact ⟨low, some sep, first_formed⟩
    · exact ih rest_formed mem

theorem Spine.formed_headed {low high : Option Item} {kid : Kid}
    {right : Option (Item × Spine Item Kid)} :
    (headed kid right).Formed Valid P low high ↔
      P low (rightBound high right) kid ∧ RightFormed Valid P low high right := by
  rcases right with _ | ⟨sep, rest⟩
  · simp [headed, Formed, RightFormed, rightBound]
  · simp only [headed, Formed, RightFormed, rightBound]
    tauto

theorem Spine.formed_plug {low high : Option Item} {left : List (Kid × Item)}
    {spine : Spine Item Kid} :
    (plug left spine).Formed Valid P low high ↔
      LeftFormed Valid P high low left ∧ spine.Formed Valid P (leftBound low left) high := by
  induction left generalizing low with
  | nil => simp [plug, LeftFormed, leftBound]
  | cons entry left ih =>
    simp only [plug, Formed, LeftFormed, leftBound, ih]
    tauto

end

namespace Tree

variable {Item Code : Type}

def pos : {h : Nat} → Tree Item h → Nat
  | 0, t => Leaf.pos t
  | _ + 1, t => Node.pos t

def items : {h : Nat} → Tree Item h → List Item
  | 0, t => Leaf.items t
  | _ + 1, t => (Node.kids t).toList.flatMap items

/-- The counter the root has on disk; that of a leaf is the number of its items. -/
def count : {h : Nat} → Tree Item h → Int
  | 0, t => (Leaf.items t).length
  | _ + 1, t => Node.count t

def blocks : {h : Nat} → Tree Item h → Multiset Nat
  | 0, t => {Leaf.pos t}
  | _ + 1, t => {Node.pos t} + ((Node.kids t).toList.map blocks).sum

def isLeaf : Nat → Bool
  | 0 => true
  | _ + 1 => false

def Exact : {h : Nat} → Tree Item h → Prop
  | 0, _ => True
  | _ + 1, t =>
    Node.count t = (items t).length ∧ ∀ kid ∈ (Node.kids t).toList, Exact kid

variable [LinearOrder Item] {m : IsamcM Item Code} (law : LawfulIsamc m)

end Tree

section

variable {Item Code Kid : Type} [LinearOrder Item] {m : IsamcM Item Code} (law : LawfulIsamc m)

def Spine.bytes (pos : Kid → Nat) : Spine Item Kid → List Byte
  | .last kid => encodePtr (pos kid)
  | .cons kid sep rest => encodePtr (pos kid) ++ (law.piece none sep ++ rest.bytes pos)

def rightBytes (pos : Kid → Nat) : Option (Item × Spine Item Kid) → List Byte
  | none => []
  | some (sep, rest) => law.piece none sep ++ rest.bytes law pos

def leftBytes (pos : Kid → Nat) : List (Kid × Item) → List Byte
  | [] => []
  | (kid, sep) :: left => encodePtr (pos kid) ++ (law.piece none sep ++ leftBytes pos left)

theorem Spine.bytes_headed (pos : Kid → Nat) (kid : Kid) (right : Option (Item × Spine Item Kid)) :
    (headed kid right).bytes law pos = encodePtr (pos kid) ++ rightBytes law pos right := by
  rcases right with _ | ⟨sep, rest⟩
  · simp [headed, bytes, rightBytes]
  · rfl

theorem Spine.bytes_plug (pos : Kid → Nat) (left : List (Kid × Item)) (spine : Spine Item Kid) :
    (plug left spine).bytes law pos = leftBytes law pos left ++ spine.bytes law pos := by
  induction left with
  | nil => rfl
  | cons entry left ih => simp [plug, bytes, leftBytes, ih]

end

namespace Tree

variable {Item Code : Type} [LinearOrder Item] {m : IsamcM Item Code} (law : LawfulIsamc m)
  (layout : Layout)

def bytes : {h : Nat} → Tree Item h → List Byte
  | 0, t => law.codes none (Leaf.items t)
  | _ + 1, t => (Node.kids t).bytes law pos

def Stored (view : Nat → Option DiskBlock) : {h : Nat} → Tree Item h → Prop
  | 0, t => view t.pos = some (.used true (encodePtr t.count) (t.bytes law))
  | _ + 1, t =>
    view t.pos = some (.used false (encodePtr t.count) (t.bytes law)) ∧
      ∀ kid ∈ (Node.kids t).toList, Stored view kid

def KidsStored (view : Nat → Option DiskBlock) : {h : Nat} → Tree Item h → Prop
  | 0, _ => True
  | _ + 1, t => ∀ kid ∈ (Node.kids t).toList, kid.Stored law view

/-- A leaf with items in order between its bounds that fits its block. -/
structure LeafFormed (low high : Option Item) (t : Leaf Item) : Prop where
  cat : t.pos % catMax < layout.noCat
  fits : (law.codes none t.items).length ≤ layout.room (t.pos % catMax)
  sorted : t.items.Pairwise (· < ·)
  bounds : ∀ x ∈ t.items, law.Valid x ∧ Above low x ∧ Below high x

/-- An internal node with children in order between its bounds that fits its block. -/
structure NodeFormed {Kid : Type} (pos : Kid → Nat) (P : Option Item → Option Item → Kid → Prop)
    (low high : Option Item) (t : Node Item Kid) : Prop where
  cat : t.pos % catMax = layout.btree
  fits : (t.kids.bytes law pos).length ≤ layout.room layout.btree
  kids : t.kids.Formed law.Valid
    (fun low high kid => pos kid % catMax = layout.btree ∧ P low high kid) low high

/-- Items and separators are in order and every block fits. -/
def Formed : {h : Nat} → Option Item → Option Item → Tree Item h → Prop
  | 0, low, high, t => LeafFormed law layout low high t
  | _ + 1, low, high, t => NodeFormed law layout pos Formed low high t

end Tree

section

variable {Item Code Kid : Type} [LinearOrder Item] {m : IsamcM Item Code} {law : LawfulIsamc m}
  {layout : Layout} {low high : Option Item}
variable {x y u : Item}

theorem Below.trans (below : Below high y) (lt : x < y) : Below high x :=
  fun u mem => lt.trans (below u mem)

theorem Beyond.above (beyond : Beyond low x) (le : x ≤ y) : Above low y :=
  fun u mem => (beyond u mem).le.trans le

theorem below_some : Below (some u) x ↔ x < u := by
  simp [Below]

theorem above_some : Above (some u) x ↔ u ≤ x := by
  simp [Above]

theorem beyond_some : Beyond (some u) x ↔ u < x := by
  simp [Beyond]

/-- Items that increase strictly and are valid and between bounds. -/
structure InOrder (law : LawfulIsamc m) (low high : Option Item) (items : List Item) : Prop where
  sorted : items.Pairwise (· < ·)
  bounds : ∀ x ∈ items, law.Valid x ∧ Above low x ∧ Below high x

theorem InOrder.append {front back : List Item} {sep : Item}
    (front_ok : InOrder law low (some sep) front) (back_ok : InOrder law (some sep) high back)
    (beyond : Beyond low sep) (below : Below high sep) : InOrder law low high (front ++ back) := by
  refine ⟨List.pairwise_append.mpr ⟨front_ok.sorted, back_ok.sorted, ?_⟩, ?_⟩
  · intro x x_mem y y_mem
    exact (below_some.mp (front_ok.bounds x x_mem).2.2).trans_le
      (above_some.mp (back_ok.bounds y y_mem).2.1)
  · intro x mem
    rcases List.mem_append.mp mem with mem | mem
    · obtain ⟨valid, above, lt⟩ := front_ok.bounds x mem
      exact ⟨valid, above, below.trans (below_some.mp lt)⟩
    · obtain ⟨valid, le, lt⟩ := back_ok.bounds x mem
      exact ⟨valid, beyond.above (above_some.mp le), lt⟩

variable {P : Option Item → Option Item → Kid → Prop} {items : Kid → List Item}

theorem Spine.inOrder (kid_ok : ∀ low high kid, P low high kid → InOrder law low high (items kid))
    {spine : Spine Item Kid} (formed : spine.Formed law.Valid P low high) :
    InOrder law low high (spine.toList.flatMap items) := by
  induction spine generalizing low with
  | last kid => simpa [toList] using kid_ok low high kid formed
  | cons kid sep rest ih =>
    obtain ⟨⟨-, beyond, below⟩, kid_formed, rest_formed⟩ := formed
    exact (kid_ok low (some sep) kid kid_formed).append (ih rest_formed) beyond below

theorem Tree.Formed.inOrder {h : Nat} {t : Tree Item h} (formed : t.Formed law layout low high) :
    InOrder law low high t.items := by
  induction h generalizing low high with
  | zero => exact ⟨LeafFormed.sorted formed, LeafFormed.bounds formed⟩
  | succ h ih =>
    exact Spine.inOrder (fun _ _ _ kid_formed => ih kid_formed.2) (NodeFormed.kids formed)

/-- Separators to the left of a child increase up to where its items start. -/
theorem leftBound_ge {left : List (Kid × Item)}
    {sep : Item} (formed : LeftFormed law.Valid P high (some sep) left) :
    ∃ bound, leftBound (some sep) left = some bound ∧ sep ≤ bound := by
  induction left generalizing sep with
  | nil => exact ⟨sep, rfl, le_rfl⟩
  | cons entry left ih =>
    obtain ⟨⟨-, beyond, -⟩, -, rest_formed⟩ := formed
    obtain ⟨bound, bound_eq, le⟩ := ih rest_formed
    exact ⟨bound, bound_eq, (beyond_some.mp beyond).le.trans le⟩

theorem LeftFormed.below
    (kid_ok : ∀ low high kid, P low high kid → InOrder law low high (items kid))
    {left : List (Kid × Item)} (formed : LeftFormed law.Valid P high low left)
    (mem : x ∈ (left.map Prod.fst).flatMap items) (above : Above (leftBound low left) y) :
    x < y := by
  induction left generalizing low with
  | nil => simp at mem
  | cons entry left ih =>
    obtain ⟨kid, sep⟩ := entry
    obtain ⟨-, kid_formed, rest_formed⟩ := formed
    rw [List.map_cons, List.flatMap_cons, List.mem_append] at mem
    rcases mem with mem | mem
    · obtain ⟨bound, bound_eq, le⟩ := leftBound_ge rest_formed
      have kid_below := ((kid_ok _ _ _ kid_formed).bounds x mem).2.2
      rw [leftBound, bound_eq, above_some] at above
      exact (below_some.mp kid_below).trans_le (le.trans above)
    · exact ih rest_formed mem above

theorem RightFormed.above
    (kid_ok : ∀ low high kid, P low high kid → InOrder law low high (items kid))
    {right : Option (Item × Spine Item Kid)} (formed : RightFormed law.Valid P low high right)
      (mem : x ∈ (rightKids right).flatMap items)
    (below : Below (rightBound high right) y) : y < x := by
  rcases right with _ | ⟨sep, rest⟩
  · simp [rightKids] at mem
  · exact (below_some.mp below).trans_le
      (above_some.mp ((Spine.inOrder kid_ok formed.2).bounds x mem).2.1)

/-- Operations on the items of one child leave the others alone. -/
theorem Applied.frame {ops : List (Item × Nat)} {old new front back : List Item}
    (applied : Applied ops old new) (front_lt : ∀ x ∈ front, ∀ op ∈ ops, x < op.1)
    (back_gt : ∀ x ∈ back, ∀ op ∈ ops, op.1 < x) :
    Applied ops (front ++ (old ++ back)) (front ++ (new ++ back)) := by
  intro x
  have front_untouched (mem : x ∈ front) (mode : Nat) : (x, mode) ∉ ops :=
    fun op => lt_irrefl x (front_lt x mem _ op)
  have back_untouched (mem : x ∈ back) (mode : Nat) : (x, mode) ∉ ops :=
    fun op => lt_irrefl x (back_gt x mem _ op)
  simp only [List.mem_append, applied x]
  tauto

end

namespace Tree

variable {Item : Type}
variable {h : Nat}

theorem pos_mem_blocks (t : Tree Item h) : t.pos ∈ t.blocks := by
  cases h with
  | zero => exact mem_singleton_self _
  | succ h => exact Multiset.mem_add.mpr (.inl (mem_singleton_self _))

theorem blocks_kid_le {t : Tree Item (h + 1)} {kid : Tree Item h}
    (mem : kid ∈ (Node.kids t).toList) : kid.blocks ≤ ((Node.kids t).toList.map blocks).sum :=
  List.single_le_sum (fun _ _ => Multiset.zero_le _) _ (List.mem_map.mpr ⟨kid, mem, rfl⟩)

theorem lt_card_blocks (t : Tree Item h) : h < t.blocks.card := by
  induction h with
  | zero =>
    change 0 < ({Leaf.pos t} : Multiset Nat).card
    rw [card_singleton]
    exact Nat.zero_lt_one
  | succ h ih =>
    have kid_le := card_le_card (blocks_kid_le (Node.kids t).head_mem)
    have kid_card := ih (Node.kids t).head
    change _ < (({Node.pos t} : Multiset Nat) + _).card
    rw [card_add, card_singleton]
    omega

variable {Code : Type} [LinearOrder Item] {m : IsamcM Item Code} {law : LawfulIsamc m}
  {layout : Layout} {view view' : Nat → Option DiskBlock}

/-- What is on disk depends on the tree's own blocks only. -/
theorem Stored.congr {t : Tree Item h} (stored : t.Stored law view)
    (same : ∀ pos ∈ t.blocks, view' pos = view pos) : t.Stored law view' := by
  induction h with
  | zero => exact (same _ t.pos_mem_blocks).trans stored
  | succ h ih =>
    refine ⟨(same _ t.pos_mem_blocks).trans stored.1, ?_⟩
    intro kid mem
    refine ih (stored.2 kid mem) fun pos pos_mem => same pos ?_
    exact Multiset.mem_add.mpr (.inr (mem_of_le (blocks_kid_le mem) pos_mem))

theorem KidsStored.congr {t : Tree Item h} (stored : t.KidsStored law view)
    {own : Multiset Nat} (nodup : (own + t.blocks).Nodup)
    (same : ∀ pos ∈ t.blocks, pos ≠ t.pos → view' pos = view pos) : t.KidsStored law view' := by
  cases h with
  | zero => trivial
  | succ h =>
    intro kid mem
    refine (stored kid mem).congr fun pos pos_mem => ?_
    have below := mem_of_le (blocks_kid_le mem) pos_mem
    refine same pos (Multiset.mem_add.mpr (.inr below)) ?_
    rintro rfl
    have blocks_nodup := (nodup_add.mp nodup).2.1
    exact disjoint_left.mp (nodup_add.mp blocks_nodup).2.2
      (mem_singleton_self _) below

theorem stored_iff {t : Tree Item h} :
    t.Stored law view ↔
      view t.pos = some (.used (isLeaf h) (encodePtr t.count) (t.bytes law)) ∧
        t.KidsStored law view := by
  cases h with
  | zero => exact ⟨fun stored => ⟨stored, trivial⟩, fun stored => stored.1⟩
  | succ h => exact Iff.rfl

end Tree

end Zebra.Isamb
