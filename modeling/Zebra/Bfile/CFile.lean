import Mathlib.Logic.Function.Basic
import Mathlib.Data.Nat.Notation

/-!
# The map of a shadow file

A shadow file has an index that takes the numbers of register blocks to shadow blocks.  It begins as
a hash table whose chains of buckets are on disk and of which a bounded number is in memory.  When
too many buckets have to be read, `cf_moveto_flat` makes it a flat array.
-/

namespace Zebra.Bfile

def hashBucket : Nat := 15

/-- Numbers in a block of the index file, of `HASH_BSIZE` bytes. -/
def hashWords : Nat := 32

/-- `head.state` -/
inductive CFileState where
  | unused
  | hash
  | flat
  deriving DecidableEq

structure CFileHead where
  state : CFileState
  nextBlock : Nat
  blockSize : Nat
  hashSize : Nat
  firstBucket : Nat
  nextBucket : Nat
  flatBucket : Nat

/-- The two shadow files of a file: the head and the numbers of the index file, and the blocks. -/
structure ShadowFile (β : Type) where
  /-- What `mf_read` of the head gives; none when the file is too short. -/
  head : Option CFileHead
  /-- How many numbers the index file has. -/
  size : Nat
  words : Nat → Nat
  blockMf : Nat → Option β

section

variable {β : Type}

/-- `cf_open` for reading, up to the head; none where an `assert` fails. -/
def cfOpen (file : ShadowFile β) (blockSize : Nat) : Option CFileHead :=
  let fresh : CFileHead :=
    { state := .hash, nextBlock := 1, blockSize, hashSize := 199, firstBucket := 8, nextBucket := 8
      flatBucket := 8 }
  match file.head with
  | none => some fresh
  | some head =>
    if head.state = .unused then some fresh
    else if head.blockSize = blockSize ∧ 2 < head.hashSize ∧ 0 < head.nextBucket ∧
        0 < head.nextBlock then some head
    else none

/-- A number of the index file; a hole, or what is past its end, is 0. -/
def ShadowFile.word (file : ShadowFile β) (i : Nat) : Nat :=
  if i < file.size then file.words i else 0

/-- `mf_write` of numbers from `start` on. -/
def ShadowFile.put (file : ShadowFile β) (start : Nat) (numbers : List Nat) : ShadowFile β :=
  { file with
    size := max file.size (start + numbers.length)
    words := fun i =>
      if start ≤ i ∧ i < start + numbers.length then numbers.getD (i - start) 0 else file.word i }

/-- `struct CFile_ph_bucket`; `no` and `vno` of a slot stand together. -/
structure PhBucket where
  slots : List (Nat × Nat)
  thisBucket : Nat
  nextBucket : Nat
  deriving DecidableEq

def PhBucket.words (ph : PhBucket) : List Nat :=
  ph.slots.map Prod.fst ++ ph.slots.map Prod.snd ++ [ph.thisBucket, ph.nextBucket]

/-- `mf_read` of a bucket; none where it does not return 1. -/
def readBucket (file : ShadowFile β) (blockNo : Nat) : Option PhBucket :=
  if (blockNo + 1) * hashWords ≤ file.size then
    some
      { slots := (List.range hashBucket).map fun i =>
          (file.word (blockNo * hashWords + i), file.word (blockNo * hashWords + hashBucket + i))
        thisBucket := file.word (blockNo * hashWords + 2 * hashBucket)
        nextBucket := file.word (blockNo * hashWords + 2 * hashBucket + 1) }
  else none

/-- The slots in use: those before the first without a shadow block. -/
def PhBucket.used (ph : PhBucket) : List (Nat × Nat) :=
  ph.slots.takeWhile fun slot => slot.2 ≠ 0

/-- The search of a bucket in `cf_lookup_hash`. -/
def PhBucket.find (ph : PhBucket) (no : Nat) : Option Nat :=
  (ph.used.find? fun slot => slot.1 = no).map Prod.snd

/-- In `cf_new_hash`: the first free slot of a bucket is taken. -/
def PhBucket.fill (ph : PhBucket) (no vno : Nat) : Option PhBucket :=
  (ph.slots.findIdx? fun slot => slot.2 = 0).map fun i =>
    { ph with slots := ph.slots.set i (no, vno) }

end

/-- `struct CFile_hash_bucket`; `hno` is the chain of `parray` it is in. -/
structure HashBucket where
  ph : PhBucket
  hno : Nat
  dirty : Bool

/-- `CFile`; the buckets in memory stand from `bucket_lru_front` to `bucket_lru_back`. -/
structure CFile where
  head : CFileHead
  /-- `hash_mf` and `block_mf` -/
  file : ShadowFile (List Nat)
  array : Nat → Nat
  buckets : List HashBucket
  dirty : Bool
  iobuf : List Nat
  noHits : Nat
  noMiss : Nat

def maxBucketInMemory : Nat := 100

def cfHash (head : CFileHead) (no : Nat) : Nat :=
  no / 8 % head.hashSize

/-- The buckets of `parray[hno]`, the newest first. -/
def CFile.chain (cf : CFile) (hno : Nat) : List HashBucket :=
  cf.buckets.filter fun hb => hb.hno = hno

/-- `flush_bucket` of so many buckets. -/
def flushBucket : Nat → CFile → CFile
  | 0, cf => cf
  | noToFlush + 1, cf =>
    match cf.buckets.getLast? with
    | none => cf
    | some p =>
      flushBucket noToFlush
        { cf with
          file := if p.dirty then cf.file.put (p.ph.thisBucket * hashWords) p.ph.words
            else cf.file
          dirty := cf.dirty || p.dirty
          buckets := cf.buckets.dropLast }

/-- `flush_bucket(cf, -1)` -/
def flushAll (cf : CFile) : CFile :=
  flushBucket cf.buckets.length cf

/-- In `alloc_bucket`: the oldest bucket leaves the memory when it is full. -/
def makeRoom (cf : CFile) : CFile :=
  if cf.buckets.length = maxBucketInMemory then flushBucket 1 cf else cf

/-- In `alloc_bucket`: the bucket enters the memory. -/
def CFile.push (cf : CFile) (p : HashBucket) : CFile :=
  { cf with buckets := p :: cf.buckets }

def getBucket (cf : CFile) (blockNo hno : Nat) : Option (CFile × HashBucket) :=
  match readBucket (makeRoom cf).file blockNo with
  | none => none
  | some ph =>
    if ph.thisBucket = blockNo then
      some ((makeRoom cf).push { ph, hno, dirty := false }, { ph, hno, dirty := false })
    else none

def CFile.setBucket (cf : CFile) (p : HashBucket) : CFile :=
  { cf with
    buckets := cf.buckets.map fun q => if q.ph.thisBucket = p.ph.thisBucket then p else q }

def cfLookupFlat (cf : CFile) (no : Nat) : Option Nat :=
  let vno :=
    cf.file.word ((no / hashWords + cf.head.nextBucket) * hashWords + no % hashWords)
  if vno ≠ 0 then some vno else none

/-- The second loop of `cf_lookup_hash`; none is an error. -/
def lookupChain (hno no : Nat) : Nat → CFile → Nat → Option (CFile × Option Nat)
  | 0, cf, blockNo => if blockNo = 0 then some (cf, none) else none
  | fuel + 1, cf, blockNo =>
    if blockNo = 0 then some (cf, none)
    else
      match (cf.chain hno).find? fun hb => hb.ph.thisBucket = blockNo with
      | some hb => lookupChain hno no fuel cf hb.ph.nextBucket
      | none =>
        match getBucket { cf with noMiss := cf.noMiss + 1 } blockNo hno with
        | none => none
        | some (cf, hb) =>
          match hb.ph.find no with
          | some vno => some (cf, some vno)
          | none => lookupChain hno no fuel cf hb.ph.nextBucket

/-- `cf_lookup_hash`; a chain has no more buckets than there are. -/
def cfLookupHash (cf : CFile) (no : Nat) : Option (CFile × Option Nat) :=
  let hno := cfHash cf.head no
  match (cf.chain hno).findSome? fun hb => hb.ph.find no with
  | some vno => some ({ cf with noHits := cf.noHits + 1 }, some vno)
  | none => lookupChain hno no cf.head.nextBucket cf (cf.array hno)

def cfLookup (cf : CFile) (no : Nat) : Option (CFile × Option Nat) :=
  if cf.head.state = .flat then some (cf, cfLookupFlat cf no) else cfLookupHash cf no

def cfWriteFlat (cf : CFile) (no vno : Nat) : CFile :=
  let hno := no / hashWords + cf.head.nextBucket
  { cf with
    head := if cf.head.flatBucket ≤ hno then { cf.head with flatBucket := hno + 1 } else cf.head
    dirty := true
    file := cf.file.put (hno * hashWords + no % hashWords) [vno] }

/-- The loop of `cf_moveto_flat`. -/
def moveBuckets : Nat → Nat → CFile → Option CFile
  | 0, _, cf => some cf
  | rounds + 1, i, cf =>
    match readBucket cf.file i with
    | none => none
    | some ph =>
      moveBuckets rounds (i + 1)
        (ph.used.foldl (fun cf slot => cfWriteFlat cf slot.1 slot.2) cf)

def cfMovetoFlat (cf : CFile) : Option CFile :=
  let flushed := flushAll cf
  (moveBuckets (cf.head.nextBucket - cf.head.firstBucket) cf.head.firstBucket flushed).map
    fun moved =>
      { moved with
        array := fun _ => 0
        head := { moved.head with state := .flat }
        dirty := true }

def cfNewFlat (cf : CFile) (no : Nat) : CFile × Nat :=
  let vno := cf.head.nextBlock
  (cfWriteFlat { cf with head := { cf.head with nextBlock := vno + 1 } } no vno, vno)

/-- `cf_new_hash` past its loops: a bucket at the end of the chain, behind `hbprev` if there is
one. -/
def appendBucket (cf : CFile) (hno no vno : Nat) (hbprev : Option HashBucket) : CFile :=
  let number := cf.head.nextBucket
  let linked :=
    match hbprev with
    | none => { cf with array := Function.update cf.array hno number }
    | some p => cf.setBucket { p with ph := { p.ph with nextBucket := number }, dirty := true }
  (makeRoom { linked with head := { cf.head with nextBucket := number + 1 } }).push
    { ph :=
        { slots := (no, vno) :: List.replicate (hashBucket - 1) (0, 0)
          thisBucket := number
          nextBucket := 0 }
      hno
      dirty := true }

/-- The second loop of `cf_new_hash`; `blockNo` is `*bucketpp`. -/
def newChain (hno no vno : Nat) : Nat → CFile → Option HashBucket → Nat → Option CFile
  | 0, cf, hbprev, blockNo =>
    if blockNo = 0 then some (appendBucket cf hno no vno hbprev) else none
  | fuel + 1, cf, hbprev, blockNo =>
    if blockNo = 0 then some (appendBucket cf hno no vno hbprev)
    else
      match (cf.chain hno).find? fun hb => hb.ph.thisBucket = blockNo with
      | some hb => newChain hno no vno fuel cf (some hb) hb.ph.nextBucket
      | none =>
        match getBucket { cf with noMiss := cf.noMiss + 1 } blockNo hno with
        | none => none
        | some (cf, hb) =>
          match hb.ph.fill no vno with
          | some ph => some (cf.setBucket { hb with ph, dirty := true })
          | none => newChain hno no vno fuel cf (some hb) hb.ph.nextBucket

/-- In the first loop of `cf_new_hash`: a bucket whose last slot is free takes the block. -/
def fillLast (hb : HashBucket) (no vno : Nat) : Option HashBucket :=
  if (hb.ph.slots.getD (hashBucket - 1) (0, 0)).2 = 0 then
    (hb.ph.fill no vno).map fun ph => { hb with ph, dirty := true }
  else none

def cfNewHash (cf : CFile) (no : Nat) : Option (CFile × Nat) :=
  let hno := cfHash cf.head no
  let vno := cf.head.nextBlock
  let next := { cf with head := { cf.head with nextBlock := vno + 1 } }
  match (cf.chain hno).findSome? fun hb => fillLast hb no vno with
  | some hb => some ({ next.setBucket hb with noHits := cf.noHits + 1 }, vno)
  | none => (newChain hno no vno cf.head.nextBucket next none (cf.array hno)).map (·, vno)

def cfNew (cf : CFile) (no : Nat) : Option (CFile × Nat) :=
  if cf.head.state = .flat then some (cfNewFlat cf no)
  else if cf.noHits < cf.noMiss * 2 then (cfMovetoFlat cf).map fun cf => cfNewFlat cf no
  else cfNewHash cf no

/-- `memcpy` to a place in a buffer. -/
def splice (buf : List Nat) (offset : Nat) (src : List Nat) : List Nat :=
  buf.take offset ++ src ++ buf.drop (offset + src.length)

/-- `mf_write` to `block_mf`; no number of bytes is the whole block. -/
def CFile.writeBlock (cf : CFile) (block offset nbytes : Nat) (buf : List Nat) : CFile :=
  let length := if nbytes = 0 then cf.head.blockSize else nbytes
  let old := (cf.file.blockMf block).getD (List.replicate cf.head.blockSize 0)
  { cf with
    file :=
      { cf.file with
        blockMf := Function.update cf.file.blockMf block
          (some (splice old offset (buf.take length))) } }

/-- What `cf_read` returns. -/
inductive CfRead where
  | error
  | missing
  | bytes (buf : List Nat)

/-- `cf_read`; none where the lookup fails. -/
def cfRead (cf : CFile) (no offset nbytes : Nat) : Option (CFile × CfRead) :=
  match cfLookup cf no with
  | none => none
  | some (cf, none) => some (cf, .missing)
  | some (cf, some block) =>
    match cf.file.blockMf block with
    | none => some (cf, .error)
    | some bytes =>
      let length := if nbytes = 0 then cf.head.blockSize else nbytes
      some (cf, .bytes ((bytes.drop offset).take length))

/-- `cf_write`; `rmf` is what `mf_read` of a register block makes of a buffer. -/
def cfWrite (rmf : Nat → List Nat → List Nat) (cf : CFile) (no offset nbytes : Nat)
    (buf : List Nat) : Option CFile :=
  match cfLookup cf no with
  | none => none
  | some (cf, some block) => some (cf.writeBlock block offset nbytes buf)
  | some (cf, none) =>
    match cfNew cf no with
    | none => none
    | some (cf, block) =>
      if block = 0 then none
      else if offset ≠ 0 ∨ nbytes ≠ 0 then
        let iobuf := splice (rmf no cf.iobuf) offset (buf.take nbytes)
        some (CFile.writeBlock { cf with iobuf } block 0 0 iobuf)
      else some (cf.writeBlock block offset nbytes buf)

/-- `write_head`; the hash array is in the blocks from 1 on. -/
def writeHead (cf : CFile) : ShadowFile (List Nat) :=
  if cf.head.state = .hash then
    cf.file.put hashWords ((List.range cf.head.hashSize).map cf.array)
  else cf.file

/-- The two files after `cf_close`. -/
def cfClose (cf : CFile) : ShadowFile (List Nat) :=
  let flushed := flushAll cf
  if flushed.dirty then { writeHead flushed with head := some flushed.head } else flushed.file

/-- `*firstp`: the shadow file has not been used. -/
def cfFirst (file : ShadowFile (List Nat)) : Bool :=
  match file.head with
  | none => true
  | some head => head.state = .unused

/-- `cf_open` for writing; none where an `assert` fails. -/
def cfOpenWrite (file : ShadowFile (List Nat)) (blockSize : Nat) : Option CFile :=
  (cfOpen file blockSize).map fun head =>
    let cf : CFile :=
      { head, file
        array := fun hno =>
          if cfFirst file = false ∧ head.state = .hash ∧ hno < head.hashSize then
            file.word (hashWords + hno)
          else 0
        buckets := [], dirty := false, iobuf := List.replicate blockSize 0, noHits := 0,
          noMiss := 0 }
    if cfFirst file then { cf with file := { writeHead cf with head := some head } } else cf

/-- What is done with a shadow file. -/
inductive CfCall where
  | write (no offset nbytes : Nat) (buf : List Nat)
  | read (no offset nbytes : Nat)
  | reopen

def cfCall (rmf : Nat → List Nat → List Nat) (blockSize : Nat) (cf : CFile) :
    CfCall → Option CFile
  | .write no offset nbytes buf => cfWrite rmf cf no offset nbytes buf
  | .read no offset nbytes => (cfRead cf no offset nbytes).map Prod.fst
  | .reopen => cfOpenWrite (cfClose cf) blockSize

def cfRun (rmf : Nat → List Nat → List Nat) (blockSize : Nat) : List CfCall → CFile → Option CFile
  | [], cf => some cf
  | call :: calls, cf => (cfCall rmf blockSize cf call).bind (cfRun rmf blockSize calls)

def noShadow : ShadowFile (List Nat) :=
  { head := none, size := 0, words := fun _ => 0, blockMf := fun _ => none }

/-- A bucket: as it is in memory, else as it is on disk. -/
def CFile.bucket (cf : CFile) (number : Nat) : Option PhBucket :=
  match cf.buckets.find? fun p => p.ph.thisBucket = number with
  | some p => some p.ph
  | none => readBucket cf.file number

def Maps (cf : CFile) (no vno : Nat) : Prop :=
  match cf.head.state with
  | .unused => False
  | .hash =>
    ∃ number ph, cf.head.firstBucket ≤ number ∧ number < cf.head.nextBucket ∧
      cf.bucket number = some ph ∧ (no, vno) ∈ ph.used
  | .flat => vno ≠ 0 ∧ cf.file.word (cf.head.nextBucket * hashWords + no) = vno

end Zebra.Bfile
