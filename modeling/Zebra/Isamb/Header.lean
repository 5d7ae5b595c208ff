import Mathlib.Data.Nat.Digits.Defs
import Zebra.Isamb.Cache

/-!
# Opening and closing an ISAMB

`isamb_close` writes the cached blocks and then, at the start of every file whose header has
changed, 16 bytes of text and the header's fields as numerals of seven bits a byte; `isamb_open2`
reads them back.  A header longer than a block goes on in the next blocks of the file, and with the
cache a block of the file is `ISAMB_CACHE_ENTRY_SIZE` bytes, whatever the block size of the
category.
-/

namespace Zebra

/-- How `isamb_open2` fails. -/
inductive OpenFault where
  /-- It returns 0: the header is bad or truncated. -/
  | refused
  /-- An `assert` fails, or the code reads what is not there. -/
  | assertion
  deriving DecidableEq

namespace Isamb

/-- The bytes of a file behind a block number and a slot; a block of the file is one ISAMB block
(slot 0) when no cache is used. -/
abbrev BlockFile := Nat → Nat → Option DiskBlock

def fileBlockSize (cache : Bool) (size : Nat) : Nat := if cache then isambCacheEntrySize else size

def majorVersion : Nat := 3

def minorVersion (useRootPtr : Bool) : Nat := if useRootPtr then 1 else 0

/-- `%02d` -/
def print02 (n : Nat) : List Byte :=
  if n < 100 then [48 + n / 10, 48 + n % 10] else (Nat.digits 10 n).reverse.map (48 + ·)

/-- `"isamb"` -/
def magic : List Byte := [105, 115, 97, 109, 98]

/-- The text in front: `"isamb%02d %02d %02d\r\n"` and the zero behind it. -/
def headerText (useRootPtr : Bool) (len : Nat) : List Byte :=
  magic ++ print02 majorVersion ++ 32 :: print02 (minorVersion useRootPtr) ++
    32 :: print02 len ++ [13, 10, 0]

def headerFields (useRootPtr : Bool) (rootPtr : Nat) (head : IsambHead) : List Byte :=
  encodePtr head.firstBlock ++ (encodePtr head.lastBlock ++ (encodePtr head.blockSize ++
    (encodePtr head.blockMax ++ (encodePtr head.freeList ++
      if useRootPtr then encodePtr rootPtr else []))))

/-- `len` in `isamb_close`. -/
def headerLength (useRootPtr : Bool) (rootPtr : Nat) (head : IsambHead) : Nat :=
  16 + (headerFields useRootPtr rootPtr head).length

/-- `hbuf` in `isamb_close`; `len` is below 100, so the text takes 16 bytes. -/
def headerBuf (useRootPtr : Bool) (rootPtr : Nat) (head : IsambHead) : List Byte :=
  headerText useRootPtr (headerLength useRootPtr rootPtr head) ++
    headerFields useRootPtr rootPtr head ++ List.replicate head.blockSize 0

/-- `sscanf` of one `%d`, without a sign, and the rest. -/
def scanInt (src : List Byte) : Option (Nat × List Byte) :=
  let src := src.dropWhile fun c => c = 32 || (9 ≤ c && c ≤ 13)
  let digits := src.takeWhile fun c => 48 ≤ c && c ≤ 57
  if digits = [] then none
  else some (digits.foldl (fun n c => 10 * n + (c - 48)) 0,
    src.dropWhile fun c => 48 ≤ c && c ≤ 57)

def flushBlocks (f : IsambFile) : IsambFile :=
  { f.cacheEntries.foldl writeEntry f with cacheEntries := [] }

/-- A block of the file that holds a part of the header. -/
def rawSlots (bytes : List Byte) : Nat → Option DiskBlock :=
  fun slot => if slot = 0 then some (.raw bytes) else none

/-- Write the header: block 0, and block `pos` while `len - pos * b_size` is positive. -/
def writeHeader (cache useRootPtr : Bool) (rootPtr : Nat) (head : IsambHead) (bf : BlockFile) :
    BlockFile := fun pos =>
  if pos = 0 ∨ pos * head.blockSize < headerLength useRootPtr rootPtr head then
    rawSlots (((headerBuf useRootPtr rootPtr head).drop (pos * head.blockSize)).take
      (fileBlockSize cache head.blockSize))
  else bf pos

/-- `isamb_close`: the files left behind. -/
def isambClose (b : Isamb) (cat : Nat) : BlockFile :=
  let f := flushBlocks (b.file cat)
  if cat < b.noCat ∧ f.headDirty then writeHeader b.cache b.useRootPtr b.rootPtr f.head f.bf
  else f.bf

/-- `for (left = len - sizes[i]; left > 0; left = left - sizes[i])`: read the blocks behind `pos`
to their places in `hbuf`. -/
def continueHeader (size : Nat) (bf : BlockFile) :
    Nat → Nat → Nat → List Byte → Except OpenFault (List Byte)
  | 0, _, _, hbuf => .ok hbuf
  | fuel + 1, left, pos, hbuf =>
    if left = 0 then .ok hbuf
    else
      match bf (pos + 1) 0 with
      | some (.raw bytes) =>
        continueHeader size bf fuel (left - size) (pos + 1) (hbuf.take ((pos + 1) * size) ++ bytes)
      | some _ => .error .assertion
      | none => .error .refused

/-- The fields of a header, with the root pointer if there is one. -/
def decodeFields (useRootPtr : Bool) (src : List Byte) : Option (List Nat) := do
  let (first, src) ← decodePtr src
  let (last, src) ← decodePtr src
  let (size, src) ← decodePtr src
  let (max, src) ← decodePtr src
  let (free, src) ← decodePtr src
  if useRootPtr then do
    let (root, _) ← decodePtr src
    some [first, last, size, max, free, root]
  else some [first, last, size, max, free]

/-- `sscanf(hbuf+5, "%d %d %d", &major, &minor, &len)`: major version and length. -/
def scanVersion (src : List Byte) : Option (Nat × Nat) := do
  let (major, src) ← scanInt src
  let (_, src) ← scanInt src
  let (len, _) ← scanInt src
  some (major, len)

/-- Read a header whose first block holds `hbuf`. -/
def readHeader (size : Nat) (useRootPtr : Bool) (bf : BlockFile) (hbuf : List Byte) :
    Except OpenFault (List Nat) :=
  if hbuf.take 5 ≠ magic then .error .refused
  else
    match scanVersion (hbuf.drop 5) with
    | none => .error .refused
    | some (major, len) =>
      if major ≠ majorVersion then .error .refused
      else do
        let hbuf ← continueHeader size bf len (len - size) 0 hbuf
        match decodeFields useRootPtr (hbuf.drop 16) with
        | some fields => .ok fields
        | none => .error .assertion

/-- Open the file of category `i`: defaults, and what the header says if there is one.  The second
component is the root pointer that the header has. -/
def openFile (noCat i size : Nat) (writeflag useRootPtr : Bool) (bf : BlockFile) :
    Except OpenFault (IsambFile × Option Nat) := do
  let default := newHead noCat i size
  let (head, root) ←
    match bf 0 0 with
    | none => .ok (default, none)
    | some (.raw hbuf) => do
        let fields ← readHeader size useRootPtr bf hbuf
        .ok ({ default with
                firstBlock := fields.getD 0 0, lastBlock := fields.getD 1 0
                blockSize := fields.getD 2 0, blockMax := fields.getD 3 0
                freeList := fields.getD 4 0 }, fields[5]?)
    | some _ => .error .refused
  if head.blockSize < head.blockOffset ∨ head.blockSize ≠ size then .error .assertion
  else .ok ({ bf, head, cacheEntries := [], headDirty := useRootPtr && writeflag }, root)

/-- `isamb_open2` on the files `disk`; a root pointer read later replaces one read before. -/
def isambOpen2 (disk : Nat → BlockFile) (writeflag cache : Bool) (sizes : List Nat)
    (useRootPtr : Bool) : Except OpenFault Isamb := do
  let files ← (List.range sizes.length).mapM fun i =>
    openFile sizes.length i (sizes.getD i 0) writeflag useRootPtr (disk i)
  .ok
    { file := fun i =>
        match files[i]? with
        | some (f, _) => f
        | none =>
          { bf := disk i, head := newHead sizes.length i (sizes.getD i 0), cacheEntries := []
            headDirty := false }
      noCat := sizes.length
      cache
      cacheSize := 40
      enableIntCount := true
      useRootPtr
      rootPtr := files.foldl (fun root f => f.2.getD root) 0 }

def setRootPtr (b : Isamb) (rootPtr : Nat) : Isamb := { b with rootPtr }

end Isamb

end Zebra
