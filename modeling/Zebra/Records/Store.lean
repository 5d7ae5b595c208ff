import Zebra.Lib.Varint

/-!
# The record store

Records wait in a cache until they are flushed.  Those that are flushed together are compressed to
one chunk, which is written to a chain of blocks; the first block of the chain counts the index
entries that refer to it.
-/

namespace Zebra.Records

/-- A block of a data file: the block that follows it, and what comes behind that number. -/
structure Block where
  next : Nat
  data : List Byte

/-- One of the `REC_BLOCK_TYPES` block classes: the fields of `records_head` for it and its file. -/
structure BlockClass where
  blockSize : Nat
  blockMove : Nat
  blockFree : Nat
  blockLast : Nat
  blockUsed : Int
  file : Nat → Option Block

structure IndexEntry where
  next : Nat
  size : Nat

/-- `Record`; `info` is a list of `REC_NO_INFO` fields. -/
structure Rec where
  sysno : Nat
  info : List (List Byte)

inductive CacheFlag where
  | nop
  | write
  | new
  | delete
  deriving DecidableEq

structure CacheEntry where
  record : Rec
  flag : CacheFlag

/-- `struct records_info`, with the files. -/
structure Store where
  /-- By `dst_type`. -/
  classes : Nat → BlockClass
  totalBytes : Int
  indexLast : Nat
  indexFree : Nat
  noRecords : Int
  index : Nat → Option IndexEntry
  cache : List CacheEntry

/-- `compression_method` and what it stands for; `compress` gives none where it does not succeed. -/
structure Compression where
  method : Byte
  compress : List Byte → Option (List Byte)
  uncompress : Byte → List Byte → Option (List Byte)

def recNoInfo : Nat := 8

def cacheMax : Nat := 400

def recCompressNone : Byte := 0

def recCompressBzip2 : Byte := 1

def Compression.chunkSize (comp : Compression) : Nat :=
  if comp.method = recCompressBzip2 then 90000 else 0

def Store.setClass (st : Store) (dstType : Nat) (cls : BlockClass) : Store :=
  { st with classes := Function.update st.classes dstType cls }

/-- What a block of a class holds besides the number in front. -/
def BlockClass.capacity (cls : BlockClass) : Nat :=
  cls.blockSize - 8

/-- `bf_write` of the number of the next block alone. -/
def BlockClass.setBlock (cls : BlockClass) (block : Nat) (b : Block) : BlockClass :=
  { cls with file := Function.update cls.file block (some b) }

/-- The reference count of a chain, a `short`. -/
def refOf (data : List Byte) : Nat :=
  data.getD 0 0 + 256 * data.getD 1 0

/-- A `short` in front of what comes behind it. -/
def withRef (ref : Nat) (rest : List Byte) : List Byte :=
  ref % 256 :: ref / 256 % 256 :: rest

/-- The loop of `rec_release_blocks` past its first test; none where a block cannot be read. -/
def releaseLoop : Nat → BlockClass → Nat → Option BlockClass
  | 0, cls, freeblock => if freeblock = 0 then some cls else none
  | fuel + 1, cls, freeblock =>
    if freeblock = 0 then some cls
    else
      match cls.file freeblock with
      | none => none
      | some b =>
        releaseLoop fuel
          { cls.setBlock freeblock { b with next := cls.blockFree } with
            blockFree := freeblock
            blockUsed := cls.blockUsed - 1 }
          b.next

/-- `rec_release_blocks`; none where it fails.  No chain is longer than its file. -/
def releaseBlocks (st : Store) (sysno : Nat) : Option Store :=
  match st.index sysno with
  | none => none
  | some entry =>
    let dstType := entry.next % 8
    let freeblock := entry.next / 8
    let cls := st.classes dstType
    if entry.next = 0 ∨ 2 ≤ dstType then none
    else if freeblock = 0 then some { st with totalBytes := st.totalBytes - entry.size }
    else
      match cls.file freeblock with
      | none => none
      | some b =>
        if b.data.length < 2 then none
        else
          let ref := (refOf b.data + 65535) % 65536
          if ref ≠ 0 then
            some
              (st.setClass dstType
                (cls.setBlock freeblock { b with data := withRef ref (b.data.drop 2) }))
          else
            (releaseLoop cls.blockLast cls freeblock).map fun cls =>
              { st.setClass dstType cls with totalBytes := st.totalBytes - entry.size }

def deleteSingle (st : Store) (sysno : Nat) : Option Store :=
  (releaseBlocks st sysno).map fun st =>
    { st with
      indexFree := sysno
      index := Function.update st.index sysno (some { next := st.indexFree, size := 0 }) }

/-- In `rec_write_tmp_buf`: a block from the list of free blocks, else a new one. -/
def allocBlock (cls : BlockClass) : Option (BlockClass × Nat) :=
  if cls.blockFree ≠ 0 then
    (cls.file cls.blockFree).map fun b =>
      ({ cls with blockFree := b.next, blockUsed := cls.blockUsed + 1 }, cls.blockFree)
  else
    some
      ({ cls with blockLast := cls.blockLast + 1, blockUsed := cls.blockUsed + 1 }, cls.blockLast)

/-- `bf_write` of a block, of which the last may be shorter than a block. -/
def writeBlock (cls : BlockClass) (block next : Nat) (data : List Byte) : BlockClass :=
  let old := ((cls.file block).map Block.data).getD []
  cls.setBlock block { next, data := data ++ old.drop data.length }

/-- The loop of `rec_write_tmp_buf` when `blockPrev` has been taken and is still to be written. -/
def writeLoop : Nat → BlockClass → Nat → List Byte → Option BlockClass
  | 0, _, _, _ => none
  | fuel + 1, cls, blockPrev, rest =>
    if rest.length ≤ cls.capacity then some (writeBlock cls blockPrev 0 rest)
    else
      match allocBlock cls with
      | none => none
      | some (cls, block) =>
        writeLoop fuel (writeBlock cls blockPrev block (rest.take cls.capacity)) block
          (rest.drop cls.capacity)

/-- `rec_write_tmp_buf` of what is in `tmp_buf` behind the first number. -/
def writeTmpBuf (st : Store) (tmpBuf : List Byte) (sysnos : List Nat) : Option Store :=
  let dstType := if (st.classes 1).blockMove ≤ tmpBuf.length then 1 else 0
  match allocBlock (st.classes dstType) with
  | none => none
  | some (cls, block) =>
    let entry : IndexEntry := { next := block * 8 + dstType, size := tmpBuf.length }
    (writeLoop tmpBuf.length cls block tmpBuf).map fun cls =>
      { st.setClass dstType cls with
        totalBytes := st.totalBytes + tmpBuf.length
        index := fun sysno => if sysno ∈ sysnos then some entry else st.index sysno }

/-- A field in `rec_cache_flush_block1`; `last` is the field of the record before it. -/
def encodeField (last : Option (List Byte)) (info : List Byte) : List Byte :=
  if info = [] then Varint.encode 1
  else if last = some info then Varint.encode 0
  else Varint.encode (info.length + 1) ++ info

/-- `rec_cache_flush_block1` -/
def encodeRecord (last : Option Rec) (record : Rec) : List Byte :=
  Varint.encode record.sysno ++
    (List.range recNoInfo).flatMap fun i =>
      encodeField (last.map fun last => last.info.getD i []) (record.info.getD i [])

/-- The locals of `rec_write_multiple`: `last_rec`, `out_buf` and `sysnos`. -/
structure Chunk where
  last : Option Rec
  out : List Byte
  sysnos : List Nat

def Chunk.add (chunk : Chunk) (record : Rec) : Chunk where
  last := some record
  out := chunk.out ++ encodeRecord chunk.last record
  sysnos := chunk.sysnos ++ [record.sysno]

/-- The loop of `rec_write_multiple`. -/
def writeEntries : List CacheEntry → Store → Chunk → Option (Store × Chunk)
  | [], st, chunk => some (st, chunk)
  | e :: entries, st, chunk =>
    match e.flag with
    | .new => writeEntries entries st (chunk.add e.record)
    | .write =>
      (releaseBlocks st e.record.sysno).bind fun st =>
        writeEntries entries st (chunk.add e.record)
    | .delete =>
      (deleteSingle st e.record.sysno).bind fun st => writeEntries entries st chunk
    | .nop => writeEntries entries st chunk

/-- The method that is used for a chunk, and the chunk as it is stored. -/
def Compression.store (comp : Compression) (out : List Byte) : Byte × List Byte :=
  if comp.method = recCompressNone then (recCompressNone, out)
  else
    match comp.compress out with
    | none => (recCompressNone, out)
    | some packed => if packed = [] then (recCompressNone, out) else (comp.method, packed)

def flushShared (comp : Compression) (st : Store) (chunk : Chunk) : Option Store :=
  if chunk.sysnos = [] then some st
  else
    let stored := comp.store chunk.out
    writeTmpBuf st (withRef chunk.sysnos.length (stored.1 :: stored.2)) chunk.sysnos

/-- `rec_write_multiple` of these entries. -/
def writeMultiple (comp : Compression) (st : Store) (entries : List CacheEntry) : Option Store :=
  (writeEntries entries st { last := none, out := [], sysnos := [] }).bind fun (st, chunk) =>
    flushShared comp st chunk

def cacheFlush (comp : Compression) (st : Store) (saveCount : Nat) : Option Store :=
  let saveCount := if st.cache.length ≤ saveCount then 0 else saveCount
  let count := st.cache.length - saveCount
  (writeMultiple comp st (st.cache.take count)).map fun written =>
    { written with cache := st.cache.drop count }

/-- `rec_cache_lookup` without a flag. -/
def cacheLookup (st : Store) (sysno : Nat) : Option CacheEntry :=
  st.cache.find? fun e => e.record.sysno = sysno

/-- In `rec_del` and `rec_put`: the record of a cache entry is replaced; an entry keeps a flag that
it has. -/
def cacheReplace (record : Rec) (flag : CacheFlag) : List CacheEntry → List CacheEntry
  | [] => []
  | e :: cache =>
    if e.record.sysno = record.sysno then
      { record, flag := if e.flag = .nop then flag else e.flag } :: cache
    else e :: cacheReplace record flag cache

def cacheUsed (cache : List CacheEntry) : Nat :=
  (cache.map fun e => (e.record.info.map List.length).sum).sum

def cacheInsert (comp : Compression) (st : Store) (record : Rec) (flag : CacheFlag) :
    Option Store :=
  let flushed :=
    if st.cache.length = cacheMax then cacheFlush comp st 1
    else if st.cache ≠ [] ∧ comp.chunkSize < cacheUsed st.cache then cacheFlush comp st 1
    else some st
  flushed.map fun st => { st with cache := st.cache ++ [{ record, flag }] }

/-- The chain of blocks in `rec_get_int`, without the numbers in front. -/
def readChain : Nat → BlockClass → Nat → Option (List Byte)
  | 0, _, freeblock => if freeblock = 0 then some [] else none
  | fuel + 1, cls, freeblock =>
    if freeblock = 0 then some []
    else
      (cls.file freeblock).bind fun b =>
        (readChain fuel cls b.next).map fun rest => b.data ++ rest

/-- A field in `rec_get_int`; `last` is what the records before it have left. -/
def decodeField (last : List Byte) (src : List Byte) : Option (List Byte × List Byte) :=
  (Varint.decode src).bind fun (size, rest) =>
    if size = 0 then some (last, rest)
    else if rest.length < size - 1 then none
    else some (rest.take (size - 1), rest.drop (size - 1))

def decodeFields : List (List Byte) → List Byte → Option (List (List Byte) × List Byte)
  | [], src => some ([], src)
  | last :: lasts, src =>
    (decodeField last src).bind fun (info, rest) =>
      (decodeFields lasts rest).map fun (infos, rest) => (info :: infos, rest)

/-- The records of a chunk up to the one with this number, if it is there. -/
def decodeChunk (sysno : Nat) : Nat → List (List Byte) → List Byte → Option (List (List Byte))
  | 0, _, _ => none
  | fuel + 1, infos, src =>
    if src = [] then some infos
    else
      (Varint.decode src).bind fun (thisSysno, rest) =>
        (decodeFields infos rest).bind fun (infos, rest) =>
          if thisSysno = sysno then some infos else decodeChunk sysno fuel infos rest

/-- `rec_get_int` past the cache; none where there is no record, or it cannot be read. -/
def readRecord (comp : Compression) (st : Store) (sysno : Nat) : Option Rec :=
  match st.index sysno with
  | none => none
  | some entry =>
    if entry.size = 0 then none
    else
      let dstType := entry.next % 8
      let cls := st.classes dstType
      if 2 ≤ dstType ∨ entry.next / 8 = 0 then none
      else
        (readChain cls.blockLast cls (entry.next / 8)).bind fun tmpBuf =>
          let method := tmpBuf.getD 2 0
          let packed := (tmpBuf.drop 3).take (entry.size - 3)
          let inBuf :=
            if method = recCompressNone then some packed else comp.uncompress method packed
          inBuf.bind fun inBuf =>
            (decodeChunk sysno (inBuf.length + 1) (List.replicate recNoInfo []) inBuf).map
              fun info => { sysno, info }

def recGet (comp : Compression) (st : Store) (sysno : Nat) : Option (Store × Option Rec) :=
  match cacheLookup st sysno with
  | some e => some (st, some e.record)
  | none =>
    match readRecord comp st sysno with
    | none => some (st, none)
    | some record => (cacheInsert comp st record .nop).map (·, some record)

def recNew (comp : Compression) (st : Store) : Option Store :=
  cacheInsert comp
    { st with indexLast := st.indexLast + 1, noRecords := st.noRecords + 1 }
    { sysno := st.indexLast, info := List.replicate recNoInfo [] } .new

def recPut (comp : Compression) (st : Store) (record : Rec) : Option Store :=
  match cacheLookup st record.sysno with
  | some _ => some { st with cache := cacheReplace record .write st.cache }
  | none => cacheInsert comp st record .write

def recDel (comp : Compression) (st : Store) (record : Rec) : Option Store :=
  let st := { st with noRecords := st.noRecords - 1 }
  match cacheLookup st record.sysno with
  | some _ => some { st with cache := cacheReplace record .delete st.cache }
  | none => cacheInsert comp st record .delete

/-- What is done with the records; a record is written or deleted by those that have got it. -/
inductive Op where
  | new
  | get (sysno : Nat)
  | put (sysno : Nat) (info : List (List Byte))
  | del (sysno : Nat)
  /-- `rec_close`, and `rec_open` again. -/
  | reopen

def opStep (comp : Compression) (st : Store) : Op → Option Store
  | .new => recNew comp st
  | .get sysno => (recGet comp st sysno).map Prod.fst
  | .put sysno info =>
    (recGet comp st sysno).bind fun got =>
      match got.2 with
      | none => some got.1
      | some _ => recPut comp got.1 { sysno, info }
  | .del sysno =>
    (recGet comp st sysno).bind fun got =>
      match got.2 with
      | none => some got.1
      | some record => recDel comp got.1 record
  | .reopen => cacheFlush comp st 0

/-- `rec_open` of a store that does not exist yet. -/
def newStore : Store where
  classes dstType :=
    { blockSize := if dstType = 0 then 256 else 2048
      blockMove := if dstType = 0 then 0 else 4096
      blockFree := 0, blockLast := 1, blockUsed := 0
      file := fun _ => none }
  totalBytes := 0
  indexLast := 1
  indexFree := 0
  noRecords := 0
  index _ := none
  cache := []

end Zebra.Records
