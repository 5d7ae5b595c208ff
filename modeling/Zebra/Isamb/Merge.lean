import Zebra.Isamb.Block

/-!
# Merging a stream into a list

`insert_leaf`, `insert_int`, `isamb_unlink` and `isamb_merge` of `isamb.c`.  A merge descends from
the root as often as the stream needs; each descent hands as many items as fit to one leaf, and a
block that outgrows its size is split on the way back.

The stream is the list of items still to be read; the lookahead buffer and its mode are those of
`isamb_merge`.  Mode 0 deletes an item, mode 1 inserts one.
-/

namespace Zebra.Isamb

variable {Item Code : Type}

/-- The lookahead buffer of `isamb_merge` and what `read_item` has not delivered yet. -/
structure Stream (Item : Type) where
  /-- `item_buf` -/
  item : Item
  mode : Nat
  /-- Items not read yet with their modes. -/
  rest : List (Item × Nat)

/-- `read_item`: whether there was an item. -/
def Stream.read (stream : Stream Item) : Bool × Stream Item :=
  match stream.rest with
  | [] => (false, stream)
  | (item, mode) :: rest => (true, { item, mode, rest })

/-- `dst_buf[0..dst)`: its size and the pieces written, last one first. -/
structure DstBuf where
  /-- `dst - dst_buf` -/
  size : Nat
  /-- Pieces written. -/
  pieces : List (List Byte)

def DstBuf.bytes (buf : DstBuf) : List Byte := buf.pieces.reverse.flatten

def DstBuf.push (buf : DstBuf) (piece : List Byte) : DstBuf :=
  { size := buf.size + piece.length, pieces := piece :: buf.pieces }

/-- The place where an overfull leaf is split: `half1`, `half2`, `cut_item_buf`, `no_items_1`. -/
structure Cut (Item : Type) where
  /-- Offset of the cut item. -/
  half1 : Nat
  /-- Offset behind the cut item. -/
  half2 : Nat
  /-- First item of the second half. -/
  item : Item
  /-- Number of items in the first half. -/
  noItems1 : Nat

/-- Variables of the two loops of `insert_leaf`. -/
structure LeafState (Item Code : Type) where
  buf : DstBuf
  c2 : Code
  cut : Option (Cut Item)
  noItems : Nat
  /-- `inserted_dst_bytes` -/
  inserted : Nat
  dirty : Bool
  /-- Whether `lookahead_item` is set. -/
  look : Bool
  stream : Stream Item
  more : Bool

variable (m : IsamcM Item Code)

/-- Encode an item at the end of `dst_buf`; the first one that starts behind `cutAt` is the
candidate for splitting. -/
def LeafState.put (cutAt : Nat) (item : Item) (s : LeafState Item Code) : LeafState Item Code :=
  let (c2, piece) := m.encode s.c2 item
  let buf := s.buf.push piece
  { s with
    buf, c2
    cut :=
      if s.cut.isNone && cutAt < s.buf.size then
        some { half1 := s.buf.size, half2 := buf.size, item, noItems1 := s.noItems }
      else s.cut
    noItems := s.noItems + 1 }

/-- Read the next lookahead; at the end of the stream there is neither more nor a lookahead. -/
def LeafState.next (s : LeafState Item Code) : LeafState Item Code :=
  match s.stream.read with
  | (true, stream) => { s with stream }
  | (false, stream) => { s with stream, look := false, more := false }

/-- Whether an item is at or beyond what the leaf may hold. -/
def beyond (maxItem : Option Item) (item : Item) : Bool :=
  match maxItem with
  | some maxItem => m.compareItem maxItem item ≤ 0
  | none => false

/-- The lookahead of `s` is marked as gone when it goes beyond what the leaf may hold. -/
def LeafState.restrict (maxItem : Option Item) (s : LeafState Item Code) : LeafState Item Code :=
  if s.look && beyond m maxItem s.stream.item then { s with look := false } else s

def nextFileItem
    (loop : Code → List Byte → Item → LeafState Item Code → Except Fault (LeafState Item Code))
    (c1 : Code) (src : List Byte) (s : LeafState Item Code) :
    Except Fault (LeafState Item Code) :=
  if src = [] then .ok s
  else
    match m.decode c1 src with
    | some (fileItem, c1, src) => loop c1 src fileItem s
    | none => .error .assertion

/-- The loop of `insert_leaf` over the items of an existing leaf; `src` is behind `fileItem`. -/
def interleave (quater : Nat) (maxItem : Option Item) :
    Nat → Code → List Byte → Item → LeafState Item Code → Except Fault (LeafState Item Code)
  | 0, _, _, _, _ => .error .assertion
  | fuel + 1, c1, src, fileItem, s =>
    let d := if s.look then m.compareItem fileItem s.stream.item else -1
    let advance := nextFileItem m (interleave quater maxItem fuel) c1 src
    if 0 < d then
      -- lookahead before file: it must be inserted
      if s.stream.mode = 0 then .error .assertion
      else
        let put := s.put m (2 * quater) s.stream.item
        let inserted := s.inserted + (put.buf.size - s.buf.size)
        if quater ≤ inserted then
          -- no more room
          interleave quater maxItem fuel c1 src fileItem { put with inserted, look := false }
        else
          let next := { put with inserted, dirty := true }.next
          interleave quater maxItem fuel c1 src fileItem (next.restrict m maxItem)
    else if d = 0 then
      if s.stream.mode = 0 then advance { s with dirty := true }.next
      else if s.stream.mode = 2 then
        advance { s.put m (2 * quater) s.stream.item with dirty := true }.next
      else advance (s.put m (2 * quater) fileItem).next
    else advance (s.put m (2 * quater) fileItem)

/-- The loop of `insert_leaf` that appends the lookahead and what follows it, up to `maxp`. -/
def append (quater maxp : Nat) (maxItem : Option Item) :
    Item → Nat → List (Item × Nat) → LeafState Item Code → Except Fault (LeafState Item Code)
  | item, mode, rest, s =>
    if beyond m maxItem item then .ok { s with stream := { item, mode, rest } }
    else if mode = 0 then .error .assertion
    else
      let put := s.put m (3 * quater) item
      if maxp < put.buf.size then
        .ok { put with buf := s.buf, noItems := s.noItems, stream := { item, mode, rest } }
      else
        match rest with
        | [] =>
          .ok { put with
                stream := { item, mode, rest := [] }, dirty := true, look := false,
                more := false }
        | (item, mode) :: rest =>
          append quater maxp maxItem item mode rest { put with dirty := true }

/-- What an insertion below a block hands back: the block, still in memory, possibly a new block to
its right with the separator between them, the rest of the stream, and whether there is more. -/
structure Descent (Item Code : Type) where
  b : Isamb
  /-- The block the insertion went to (`*sp1`). -/
  p : Block Code
  /-- The block split off (`*sp2`) and `sub_item`. -/
  sp : Option (Block Code × Item)
  stream : Stream Item
  more : Bool

/-- The smallest category with room for `size` bytes, or the last one. -/
def categoryFor (b : Isamb) (size : Nat) : Nat :=
  ((List.range b.noCat).find? fun i => size ≤ b.blockMax i).getD (b.noCat - 1)

/-- The two loops of `insert_leaf`.  The first one makes fewer rounds than the largest block has
bytes for the leaf's own items, and fewer than that for items inserted. -/
def fillLeaf (b : Isamb) (p : Option (Block Code)) (stream : Stream Item)
    (maxItem : Option Item) : Except Fault (LeafState Item Code) := do
  let blockMax := b.blockMax (b.noCat - 1)
  let quater := blockMax / 4
  let s : LeafState Item Code :=
    { buf := { size := 0, pieces := [] }, c2 := m.reset, cut := none, noItems := 0, inserted := 0
      dirty := false, look := true, stream, more := true }
  let bytes := (p.map Block.bytes).getD []
  let s ←
    if bytes = [] then .ok s
    else
      match m.decode m.reset bytes with
      | some (fileItem, c1, src) =>
        interleave m quater maxItem (2 * blockMax) c1 src fileItem s
      | none => .error .assertion
  if s.look then
    append m quater (blockMax + quater) maxItem s.stream.item s.stream.mode s.stream.rest s
  else .ok s

/-- The block for the new contents of a leaf: the old one, unless it is too small for them. -/
def leafBlock (b : Isamb) (p : Option (Block Code)) (s : LeafState Item Code) :
    Except Fault (Block Code × Isamb) :=
  let fresh (b : Isamb) : Except Fault (Block Code × Isamb) :=
    newBlock m b true (b.categoryFor s.buf.size)
  match p with
  | some p =>
    let p := { p with dirty := p.dirty || s.dirty }
    if p.cat ≠ b.noCat - 1 ∧ b.blockMax p.cat < s.buf.size then do
      let b ← closeBlock m b { p with deleted := true }
      fresh b
    else .ok (p, b)
  | none => fresh b

def insertLeaf (b : Isamb) (p : Option (Block Code)) (stream : Stream Item)
    (maxItem : Option Item) : Except Fault (Descent Item Code) := do
  let s ← fillLeaf m b p stream maxItem
  let (p, b) ← leafBlock m b p s
  if b.blockMax p.cat < s.buf.size then
    match s.cut with
    | none => .error .assertion
    | some cut =>
      let first := s.buf.bytes.take cut.half1
      let (second, b) ← newBlock m b true p.cat
      let bytes := (m.encode m.reset cut.item).2 ++ s.buf.bytes.drop cut.half2
      if b.blockMax p.cat < first.length ∨ b.blockMax p.cat < bytes.length then
        .error .assertion
      else
        .ok { b
              p := { p with bytes := first, noItems := cut.noItems1, dirty := true }
              sp := some ({ second with bytes, noItems := (s.noItems - cut.noItems1 : Nat) },
                cut.item)
              stream := s.stream, more := s.more }
  else
    .ok { b, p := { p with bytes := s.buf.bytes, noItems := s.noItems }, sp := none,
          stream := s.stream, more := s.more }

/-- The child that `insert_int` descends to: `pos` is the pointer read last and `src` what follows
it.  The third component bounds the items the child may take. -/
def findChild (lookahead : Item) (lastMax : Option Item) :
    Nat → Nat → List Byte → Option (Nat × List Byte × Option Item)
  | 0, _, _ => none
  | fuel + 1, pos, src =>
    if src = [] then some (pos, src, lastMax)
    else do
      let (item, next, rest) ← decodeEntry m src
      if 0 < m.compareItem item lookahead then some (pos, src, some item)
      else findChild lookahead lastMax fuel next rest

/-- `no_items` of a child, read again from its block. -/
def countOf (b : Isamb) (pos : Nat) : Except Fault (Int × Isamb) :=
  if b.enableIntCount then do
    let (p, b) ← openBlock m b pos
    let b ← closeBlock m b p
    .ok (p.noItems, b)
  else .ok (0, b)

/-- `while (src <= half)`: what is left behind the first half of `size` bytes, and how many items
the children passed claim to have. -/
def firstHalf (half size : Nat) :
    Nat → Isamb → List Byte → Int → Except Fault (List Byte × Int × Isamb)
  | 0, _, _, _ => .error .assertion
  | fuel + 1, b, src, noItems =>
    if half < size - src.length then .ok (src, noItems, b)
    else
      match decodeEntry m src with
      | none => .error .assertion
      | some (_, pos, rest) => do
          let (count, b) ← countOf m b pos
          firstHalf half size fuel b rest (noItems + count)

/-- Split an internal node whose new contents `dst` do not fit: the node with its first half, the
new node and the separator between them. -/
def splitInt (b : Isamb) (p : Block Code) (dst : List Byte) :
    Except Fault (Block Code × (Block Code × Item) × Isamb) := do
  let blockSize := (b.file p.cat).head.blockSize
  match decodePtr dst with
  | none => .error .assertion
  | some (pos, src) =>
    let (count, b) ← countOf m b pos
    let (src, noItems, b) ← firstHalf m (blockSize / 2) dst.length blockSize b src count
    match m.decode m.reset src with
    | none => .error .assertion
    | some (item, _, rest) =>
      let (sp, b) ← newBlock m b false p.cat
      let second := { sp with bytes := rest, noItems := p.noItems - noItems }
      let first :=
        { p with bytes := dst.take (dst.length - src.length), noItems, dirty := true }
      .ok (first, (second, item), b)

/-- Add `diff_terms` to the counter of a block. -/
def adjustCount (p : Block Code) (diff : Int) : Block Code :=
  if diff = 0 then p else { p with dirty := true, noItems := p.noItems + diff }

/-- `insert_int` after `insert_sub` has changed the child: adjust the counter and put the pointer to
a new block in front of `src`. -/
def joinChild (p : Block Code) (src : List Byte) (child : Block Code)
    (r : Descent Item Code) : Except Fault (Descent Item Code) :=
  let diff := r.p.noItems - child.noItems + (r.sp.map fun sp => sp.1.noItems).getD 0
  let p := adjustCount p diff
  match r.sp with
  | none => do
      let b ← closeBlock m r.b r.p
      .ok { r with b, p, sp := none }
  | some (sub2, item) => do
      -- there was a split: insert the pointer here
      let dst := p.bytes.take (p.bytes.length - src.length) ++
        ((m.encode m.reset item).2 ++ (encodePtr sub2.pos ++ src))
      let b ← closeBlock m r.b sub2
      if dst.length ≤ b.blockMax p.cat then do
        let b ← closeBlock m b r.p
        .ok { r with b, p := { p with bytes := dst, dirty := true }, sp := none }
      else do
        -- the changed child is not written before its count is read again
        let (p, sp, b) ← splitInt m b { p with dirty := true } dst
        let b ← closeBlock m b r.p
        .ok { r with b, p, sp := some sp }

/-- `insert_int`, with `sub` for `insert_sub` on a child. -/
def insertInt
    (sub : Isamb → Block Code → Stream Item → Option Item → Except Fault (Descent Item Code))
    (b : Isamb) (p : Block Code) (stream : Stream Item) (lastMax : Option Item) :
    Except Fault (Descent Item Code) :=
  match decodePtr p.bytes with
  | none => .error .assertion
  | some (pos, src) =>
    match findChild m stream.item lastMax (b.file p.cat).head.blockSize pos src with
    | none => .error .assertion
    | some (pos, src, maxItem) => do
        let (child, b) ← openBlock m b pos
        let r ← sub b child stream maxItem
        joinChild m p src child r

/-- `insert_sub`, at most `fuel` levels deep. -/
def insertSub : Nat → Isamb → Block Code → Stream Item → Option Item →
    Except Fault (Descent Item Code)
  | 0, _, _, _, _ => .error .assertion
  | fuel + 1, b, p, stream, maxItem =>
    if p.leaf then insertLeaf m b (some p) stream maxItem
    else insertInt m (insertSub fuel) b p stream maxItem

/-- More levels than any tree can have: every level has a block of its own. -/
def maxLevels (b : Isamb) : Nat :=
  catMax * ((List.range catMax).map fun cat => (b.file cat).head.lastBlock).sum + 1

/-- `isamb_unlink`, at most `fuel` levels deep. -/
def unlink : Nat → Isamb → Nat → Except Fault Isamb
  | 0, _, _ => .error .assertion
  | fuel + 1, b, pos =>
    if pos = 0 then .ok b
    else do
      let (p, b) ← openBlock m b pos
      let b ←
        if p.leaf then .ok b
        else
          match children m b p with
          | none => .error .assertion
          | some kids => kids.foldlM (unlink fuel) b
      closeBlock m b { p with deleted := true }

/-- One round of the loop of `isamb_merge` up to the insertion: open the root and descend. -/
def descend (b : Isamb) (pos : Nat) (stream : Stream Item) : Except Fault (Descent Item Code) :=
  if pos = 0 then insertLeaf m b none stream none
  else do
    let (p, b) ← openBlock m b pos
    insertSub m b.maxLevels b p stream none

/-- The rest of a round: a split root gets a new block above it. -/
def growRoot (r : Descent Item Code) : Except Fault (Nat × Isamb) :=
  match r.sp with
  | none => do
      let b ← closeBlock m r.b r.p
      .ok (r.p.pos, b)
  | some (sp, item) => do
      let (p2, b) ← newBlock m r.b false r.p.cat
      let p2 :=
        { p2 with
          bytes := encodePtr r.p.pos ++ (m.encode m.reset item).2 ++ encodePtr sp.pos
          noItems := r.p.noItems + sp.noItems }
      let b ← closeBlock m b sp
      let b ← closeBlock m b p2
      let b ← closeBlock m b r.p
      .ok (p2.pos, b)

/-- The loop of `isamb_merge`: the root, whether the list must be deleted, and the state. -/
def mergeLoop : Nat → Isamb → Nat → Stream Item → Except Fault (Nat × Bool × Isamb)
  | 0, _, _, _ => .error .assertion
  | fuel + 1, b, pos, stream => do
      let r ← descend m b pos stream
      let (pos, b) ← growRoot m r
      if r.more then mergeLoop fuel b pos r.stream
      else .ok (pos, r.p.noItems = 0, b)

/-- `isamb_merge`: the new position and the new state.  Every round takes an item off the stream. -/
def merge (b : Isamb) (pos : Nat) (items : List (Item × Nat)) : Except Fault (Nat × Isamb) :=
  match items with
  | [] => .ok (pos, b)
  | (item, mode) :: rest => do
      let (pos, mustDelete, b) ← mergeLoop m (rest.length + 1) b pos { item, mode, rest }
      if mustDelete then
        let b ← unlink m b.maxLevels b pos
        .ok (0, b)
      else .ok (pos, b)

end Zebra.Isamb
