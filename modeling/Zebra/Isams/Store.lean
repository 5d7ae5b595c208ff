import Zebra.Isamb.Block

/-!
# The ISAMS store

`isams.c`: lists are appended to one file of blocks.  The last block is kept in `merge_buf` until it
is full or the store is closed.  Where a list begins, the number of its items is put in afterwards.
-/

namespace Zebra.Isams

abbrev Mem := Nat → Byte

/-- `memcpy` of `n` bytes to address `dst`. -/
def memcpy (mem : Mem) (dst : Nat) (src : Mem) (n : Nat) : Mem :=
  fun i => if dst ≤ i ∧ i < dst + n then src (i - dst) else mem i

def ofList (bytes : List Byte) : Mem := fun i => bytes.getD i 0

/-- `n` bytes from address `src` on. -/
def toList (mem : Mem) (src n : Nat) : List Byte := (List.range n).map fun i => mem (src + i)

/-- The four bytes of an `int`. -/
def intBytes (n : Nat) : List Byte := [n % 256, n / 256 % 256, n / 65536 % 256, n / 16777216 % 256]

def bytesUInt (mem : Mem) (src : Nat) : Nat :=
  mem src + 256 * mem (src + 1) + 65536 * mem (src + 2) + 16777216 * mem (src + 3)

/-- The `int` with these bits. -/
def toInt (n : Nat) : Int :=
  if n % 4294967296 < 2147483648 then (n % 4294967296 : Nat) else
    (n % 4294967296 : Nat) - 4294967296

/-- A register file with all its blocks one after another. -/
structure BFile where
  size : Nat
  data : Mem

/-- `bf_write` of `nbytes` bytes. -/
def bfWrite (bf : BFile) (blockSize no offset nbytes : Nat) (src : Mem) : BFile where
  size := max bf.size (no * blockSize + offset + nbytes)
  data := memcpy (fun i => if i < bf.size then bf.data i else 0)
    (no * blockSize + offset) src nbytes

/-- `bf_read` of a block into a buffer; behind the end of the file nothing is read. -/
def bfRead (bf : BFile) (blockSize no : Nat) (buf : Mem) (dst : Nat) : Mem :=
  memcpy buf dst (fun i => bf.data (no * blockSize + i)) (min blockSize (bf.size - no * blockSize))

/-- `ISAMS_s`; `head` and `head_old` are `last_offset` and `last_block`. -/
structure IsamsS where
  blockSize : Nat
  lastOffset : Nat
  lastBlock : Nat
  headOld : Nat × Nat
  mergeBuf : Mem
  bf : BFile

def isamsOpen (blockSize : Nat) (bf : BFile) : IsamsS :=
  let head := if 8 ≤ bf.size then (bytesUInt bf.data 0, bytesUInt bf.data 4) else (0, 1)
  { blockSize, lastOffset := head.1, lastBlock := head.2, headOld := head,
    mergeBuf := fun _ => 0, bf }

/-- `isams_close`; what is left is the file. -/
def isamsClose (is : IsamsS) : BFile :=
  if (is.lastOffset, is.lastBlock) ≠ is.headOld then
    let bf :=
      if is.lastOffset ≠ 0 then bfWrite is.bf is.blockSize is.lastBlock 0 is.lastOffset is.mergeBuf
      else is.bf
    bfWrite bf is.blockSize 0 0 8 (ofList (intBytes is.lastOffset ++ intBytes is.lastBlock))
  else is.bf

/-- In `isams_merge`, when `last_offset` has grown: a block that is full is written. -/
def writeFull (is : IsamsS) : IsamsS :=
  if is.lastOffset > is.blockSize then
    { is with
      bf := bfWrite is.bf is.blockSize is.lastBlock 0 is.blockSize is.mergeBuf
      lastBlock := is.lastBlock + 1
      lastOffset := is.lastOffset - is.blockSize
      mergeBuf := memcpy is.mergeBuf 0 (fun i => is.mergeBuf (is.blockSize + i))
        (is.lastOffset - is.blockSize) }
  else is

variable {Item Code : Type}

/-- In `isams_merge`: one item. -/
def putItem (m : IsamcM Item Code) (s : IsamsS × Code) (item : Item) : IsamsS × Code :=
  let (is, code) := s
  let (code, bytes) := m.encode code item
  (writeFull { is with
    mergeBuf := memcpy is.mergeBuf is.lastOffset (ofList bytes) bytes.length
    lastOffset := is.lastOffset + bytes.length }, code)

/-- In `isams_merge`: the number of items is put where the list begins. -/
def putCount (is : IsamsS) (firstBlock firstOffset count : Nat) : IsamsS :=
  if firstBlock = is.lastBlock then
    { is with mergeBuf := memcpy is.mergeBuf firstOffset (ofList (intBytes count)) 4 }
  else if firstBlock + 1 = is.lastBlock then
    if firstOffset + 4 > is.blockSize then
      let gap := firstOffset + 4 - is.blockSize
      { is with
        bf :=
          if gap < 4 then
            bfWrite is.bf is.blockSize firstBlock firstOffset (4 - gap) (ofList (intBytes count))
          else is.bf
        mergeBuf := memcpy is.mergeBuf 0 (fun i => ofList (intBytes count) (4 - gap + i)) gap }
    else
      { is with
        bf := bfWrite is.bf is.blockSize firstBlock firstOffset 4 (ofList (intBytes count)) }
  else
    { is with bf := bfWrite is.bf is.blockSize firstBlock firstOffset 4 (ofList (intBytes count)) }

/-- `isams_merge`; the position is computed as an `int`. -/
def isamsMerge (m : IsamcM Item Code) (is : IsamsS) (items : List Item) : Int × IsamsS :=
  let start := writeFull { is with lastOffset := is.lastOffset + 4 }
  let (written, _) := items.foldl (putItem m) (start, m.reset)
  (toInt (is.lastBlock * is.blockSize + is.lastOffset),
    putCount written is.lastBlock is.lastOffset items.length)

/-- `ISAMS_PP_s` -/
structure IsamsPp (Code : Type) where
  buf : Mem
  blockOffset : Nat
  blockNo : Nat
  code : Code
  numKeys : Int
  numRead : Nat

/-- `isams_pp_open`, with anything in the buffer; a negative position cannot be read. -/
def isamsPpOpen (m : IsamcM Item Code) (blockSize : Nat) (bf : BFile) (buf : Mem) (pos : Int) :
    Option (IsamsPp Code) :=
  if pos < 0 then none
  else
    let blockNo := pos.toNat / blockSize
    let blockOffset := pos.toNat - blockNo * blockSize
    if pos = 0 then some { buf, blockOffset, blockNo, code := m.reset, numKeys := 0, numRead := 0 }
    else
      let buf := bfRead bf blockSize blockNo buf 0
      let buf := bfRead bf blockSize (blockNo + 1) buf blockSize
      some {
        buf, blockNo, code := m.reset, numRead := 0
        numKeys := toInt (bytesUInt buf blockOffset)
        blockOffset := blockOffset + 4 }

/-- `isams_pp_read`: an item, none behind the last; the whole is none where nothing is encoded. -/
def isamsPpRead (m : IsamcM Item Code) (blockSize : Nat) (bf : BFile) (pp : IsamsPp Code) :
    Option (Option Item × IsamsPp Code) :=
  if pp.numRead ≥ pp.numKeys then some (none, pp)
  else
    let pp := { pp with numRead := pp.numRead + 1 }
    let pp :=
      if pp.blockOffset > blockSize then
        { pp with
          blockOffset := pp.blockOffset - blockSize
          blockNo := pp.blockNo + 1
          buf := bfRead bf blockSize (pp.blockNo + 2)
            (memcpy pp.buf 0 (fun i => pp.buf (blockSize + i)) blockSize) blockSize }
      else pp
    let src := toList pp.buf pp.blockOffset (2 * blockSize - pp.blockOffset)
    (m.decode pp.code src).map fun (item, code, rest) =>
      (some item, { pp with code, blockOffset := pp.blockOffset + (src.length - rest.length) })

/-- Reading until `isams_pp_read` returns 0. -/
def readAll (m : IsamcM Item Code) (blockSize : Nat) (bf : BFile) :
    Nat → IsamsPp Code → Option (List Item)
  | 0, _ => none
  | fuel + 1, pp =>
    isamsPpRead m blockSize bf pp >>= fun (item, pp) =>
      item.elim (some []) fun item => (readAll m blockSize bf fuel pp).map (item :: ·)

end Zebra.Isams
