import Zebra.Keys.ItKey

/-!
# Blocks of an ISAMB and where they are kept

The lower half of `isamb.c`: positions, block headers, the files of the size categories with their
free lists, the write-back cache in front of a file, and `open_block`, `new_block`, `close_block`.
A position (`ISAM_P`) is `block_no * CAT_MAX + cat`; position 0 is no
block.

A block on disk is either in use or on the free list of its category.  The header of a used block
keeps the bytes that `encode_ptr` wrote for `no_items`; `open_block` decodes them in front of the
zeros of a fresh header.  The used size is the length of `bytes`.
-/

namespace Zebra

/-- How a call ends when it does not return. -/
inductive Fault where
  /-- An `assert` fails, or the code reads what is not there. -/
  | assertion
  /-- `zebra_exit`: a block cannot be read, or the file has no more room for blocks. -/
  | exit
  deriving DecidableEq

/-- `ISAMC_M`: comparison and codec of the items of a list. -/
structure IsamcM (Item Code : Type) where
  compareItem : Item → Item → Int
  /-- State after `codec.start` and `codec.reset`. -/
  reset : Code
  encode : Code → Item → Code × List Byte
  decode : Code → List Byte → Option (Item × Code × List Byte)

/-- The method of the index: `key_compare` and `iscz1`. -/
def keyMethod : IsamcM ItKey CodeInfo where
  compareItem := keyCompare
  reset := iscz1Reset
  encode := iscz1Encode
  decode := iscz1Decode

def catMax : Nat := 4

def isambCacheEntrySize : Nat := 32768

/-- `encode_ptr`; a number below 128, negative ones too, is cut to one byte. -/
def encodePtr (pos : Int) : List Byte :=
  if 127 < pos then Varint.encode pos.toNat else [(pos % 256).toNat]

def decodePtr (src : List Byte) : Option (Nat × List Byte) := Varint.decode src

inductive DiskBlock where
  /-- `close_block` of a live block: leader byte, encoded `no_items`, used bytes. -/
  | used (leaf : Bool) (noItems : List Byte) (bytes : List Byte)
  /-- `close_block` of a deleted block: the next block of the free list. -/
  | free (next : Nat)
  | raw (bytes : List Byte)
  deriving DecidableEq

structure IsambHead where
  /-- First block that is not part of the header. -/
  firstBlock : Nat
  /-- Next block never used. -/
  lastBlock : Nat
  /-- Position of the first free block. -/
  freeList : Nat
  blockSize : Nat
  /-- Room for items. -/
  blockMax : Nat
  /-- Size of a block's own header. -/
  blockOffset : Nat

/-- `struct ISAMB_cache_entry`: `ISAMB_CACHE_ENTRY_SIZE` bytes, seen as slots of one block. -/
structure CacheEntry where
  /-- Block number in the file. -/
  pos : Nat
  buf : Nat → Option DiskBlock
  dirty : Bool

/-- `struct ISAMB_file`.  A block of `bf` is one ISAMB block (slot 0) when no cache is used and
`ISAMB_CACHE_ENTRY_SIZE` bytes of slots otherwise. -/
structure IsambFile where
  bf : Nat → Nat → Option DiskBlock
  head : IsambHead
  /-- Cached entries, most recently used first. -/
  cacheEntries : List CacheEntry
  headDirty : Bool

/-- `struct ISAMB_s` -/
structure Isamb where
  file : Nat → IsambFile
  /-- Number of categories. -/
  noCat : Nat
  /-- Whether the cache is used. -/
  cache : Bool
  /-- Number of cache entries a file may have; `isamb_open2` sets 40. -/
  cacheSize : Nat
  /-- Whether counts of split internal nodes are recomputed. -/
  enableIntCount : Bool
  /-- Whether the headers hold the root pointer: `minor_version` is
  `ISAMB_MINOR_VERSION_WITH_ROOT`. -/
  useRootPtr : Bool
  rootPtr : Nat

/-- `struct ISAMB_block`: a block in memory, `bytes` being `size` bytes long. -/
structure Block (Code : Type) where
  /-- Position. -/
  pos : Nat
  /-- Category. -/
  cat : Nat
  /-- Leaf or internal node. -/
  leaf : Bool
  /-- Must be written when closed. -/
  dirty : Bool
  /-- Is put on the free list when closed. -/
  deleted : Bool
  /-- Read position of a cursor. -/
  offset : Nat
  /-- Number of items in this block and below it. -/
  noItems : Int
  /-- Used bytes. -/
  bytes : List Byte
  /-- Decoder state of a cursor. -/
  decodeClientData : Code

namespace Isamb

def setFile (b : Isamb) (cat : Nat) (f : IsambFile) : Isamb :=
  { b with file := Function.update b.file cat f }

/-- Replace the header of a category, which makes it dirty. -/
def setHead (b : Isamb) (cat : Nat) (head : IsambHead) : Isamb :=
  b.setFile cat { b.file cat with head, headDirty := true }

/-- `block_max` of a category. -/
def blockMax (b : Isamb) (cat : Nat) : Nat := (b.file cat).head.blockMax

def newHead (noCat i size : Nat) : IsambHead where
  firstBlock := isambCacheEntrySize / size + 1
  lastBlock := isambCacheEntrySize / size + 1
  freeList := 0
  blockSize := size
  blockMax := size - if i + 1 = noCat ∨ 128 < size then 8 else 4
  blockOffset := if i + 1 = noCat ∨ 128 < size then 8 else 4

/-- `isamb_open2` on files that do not exist yet, without a root pointer. -/
def open2 (cache : Bool) (sizes : List Nat) : Isamb where
  file i :=
    { bf := fun _ _ => none
      head := newHead sizes.length i (sizes.getD i 0)
      cacheEntries := []
      headDirty := false }
  noCat := sizes.length
  cache := cache
  cacheSize := 40
  enableIntCount := true
  useRootPtr := false
  rootPtr := 0

def cacheSlot (f : IsambFile) (pos : Nat) : Nat :=
  (pos / catMax) &&& (isambCacheEntrySize / f.head.blockSize - 1)

/-- Block number of the entry that has a block; `CAT_MASK` is `CAT_MAX - 1`. -/
def cacheNorm (f : IsambFile) (pos : Nat) : Nat :=
  pos / ((catMax - 1) * isambCacheEntrySize / f.head.blockSize)

def writeEntry (f : IsambFile) (entry : CacheEntry) : IsambFile :=
  if entry.dirty then { f with bf := Function.update f.bf entry.pos entry.buf } else f

/-- The entry for block number `norm` and the other entries of the file: found in the list, or
read from the file after the last entry has made room. -/
def fetchEntry (cacheSize : Nat) (f : IsambFile) (norm : Nat) : CacheEntry × IsambFile :=
  match f.cacheEntries.find? (·.pos = norm) with
  | some entry => (entry, { f with cacheEntries := f.cacheEntries.eraseP (·.pos = norm) })
  | none =>
    let f :=
      if cacheSize ≤ f.cacheEntries.length then
        match f.cacheEntries.getLast? with
        | some entry =>
          { writeEntry f entry with cacheEntries := f.cacheEntries.dropLast }
        | none => f
      else f
    ({ pos := norm, buf := f.bf norm, dirty := false }, f)

/-- `cache_block` with `wr` 0: the slot of the block; the entry moves to the front. -/
def cacheRead (cacheSize : Nat) (f : IsambFile) (pos : Nat) : Option DiskBlock × IsambFile :=
  let (entry, f) := fetchEntry cacheSize f (cacheNorm f pos)
  (entry.buf (cacheSlot f pos), { f with cacheEntries := entry :: f.cacheEntries })

/-- `cache_block` with `wr` 1. -/
def cacheWrite (cacheSize : Nat) (f : IsambFile) (pos : Nat) (block : DiskBlock) : IsambFile :=
  let (entry, f) := fetchEntry cacheSize f (cacheNorm f pos)
  let entry :=
    { entry with buf := Function.update entry.buf (cacheSlot f pos) (some block), dirty := true }
  { f with cacheEntries := entry :: f.cacheEntries }

def readBlock (b : Isamb) (pos : Nat) : Option DiskBlock × Isamb :=
  let f := b.file (pos % catMax)
  if b.cache then
    let (block, f) := cacheRead b.cacheSize f pos
    (block, b.setFile (pos % catMax) f)
  else (f.bf (pos / catMax) 0, b)

def writeBlock (b : Isamb) (pos : Nat) (block : DiskBlock) : Isamb :=
  let f := b.file (pos % catMax)
  if b.cache then b.setFile (pos % catMax) (cacheWrite b.cacheSize f pos block)
  else
    b.setFile (pos % catMax)
      { f with bf := Function.update f.bf (pos / catMax)
                (Function.update (f.bf (pos / catMax)) 0 (some block)) }

variable {Item Code : Type} (m : IsamcM Item Code)

def openBlock (b : Isamb) (pos : Nat) : Except Fault (Block Code × Isamb) :=
  if pos = 0 then .error .assertion
  else
    match b.readBlock pos with
    | (some (.used leaf noItems bytes), b) =>
      match decodePtr (noItems ++ [0]) with
      | some (count, _) =>
        .ok ({ pos, cat := pos % catMax, leaf, dirty := false, deleted := false, offset := 0,
               noItems := count, bytes, decodeClientData := m.reset }, b)
      | none => .error .assertion
    | (some (.free _), _) => .error .assertion
    | (some (.raw _), _) => .error .assertion
    | (none, _) => .error .exit

/-- The position `new_block` takes: the head of the free list, or a block never used.  Block
numbers must keep positions within a `zint`. -/
def allocate (b : Isamb) (cat : Nat) : Except Fault (Nat × Isamb) :=
  let head := (b.file cat).head
  if head.freeList = 0 then
    let pos := head.lastBlock * catMax + cat
    if pos < 2 ^ 63 then .ok (pos, b.setHead cat { head with lastBlock := head.lastBlock + 1 })
    else .error .exit
  else if head.freeList % catMax ≠ cat then .error .assertion
  else
    match b.readBlock head.freeList with
    | (some (.free next), b) => .ok (head.freeList, b.setHead cat { head with freeList := next })
    | (some (.used ..), _) => .error .assertion
    | (some (.raw _), _) => .error .assertion
    | (none, _) => .error .exit

def newBlock (b : Isamb) (leaf : Bool) (cat : Nat) : Except Fault (Block Code × Isamb) := do
  let (pos, b) ← b.allocate cat
  .ok ({ pos, cat, leaf, dirty := true, deleted := false, offset := 0, noItems := 0, bytes := [],
         decodeClientData := m.reset }, b)

/-- An item and the pointer behind it in an internal node; items are coded from a reset state. -/
def decodeEntry (src : List Byte) : Option (Item × Nat × List Byte) := do
  let (item, _, src) ← m.decode m.reset src
  let (pos, src) ← decodePtr src
  some (item, pos, src)

def decodeEntries : Nat → List Byte → Option (List (Item × Nat))
  | 0, _ => none
  | fuel + 1, src =>
    if src = [] then some []
    else do
      let (item, pos, src) ← decodeEntry m src
      let entries ← decodeEntries fuel src
      some ((item, pos) :: entries)

/-- The child pointers of an internal node; a block has fewer of them than bytes. -/
def children (b : Isamb) (p : Block Code) : Option (List Nat) := do
  let (pos, src) ← decodePtr p.bytes
  let entries ← decodeEntries m (b.file p.cat).head.blockSize src
  some (pos :: entries.map Prod.snd)

/-- `check_block`: all children of an internal node are in its own category. -/
def checkBlock (b : Isamb) (p : Block Code) : Bool :=
  p.leaf ||
    match children m b p with
    | some kids => kids.all (· % catMax = p.cat)
    | none => false

def closeBlock (b : Isamb) (p : Block Code) : Except Fault Isamb :=
  if p.deleted then
    let head := (b.file p.cat).head
    let b := b.setHead p.cat { head with freeList := p.pos }
    .ok (b.writeBlock p.pos (.free head.freeList))
  else if p.dirty then
    if checkBlock m b p then
      .ok (b.writeBlock p.pos (.used p.leaf (encodePtr p.noItems) p.bytes))
    else .error .assertion
  else .ok b

end Isamb

end Zebra
