import Zebra.Isamb.Persist

/-!
# Blocks behind the cache

Whatever is read and written through `cache_block`, and however small the cache is: a block is read
as it has last been written, and flushing leaves it so in the file.  No two blocks share a place,
neither a slot nor a byte of it.
-/

namespace Zebra.Isamb

inductive BlockOp where
  /-- `cache_block` with `wr` 0 -/
  | read (pos : Nat)
  /-- `cache_block` with `wr` 1 -/
  | write (pos : Nat) (block : DiskBlock)
  | setCacheSize (v : Nat)

def BlockOp.step (b : Isamb) : BlockOp → List (Option DiskBlock) × Isamb
  | .read pos => ([(b.readBlock pos).1], (b.readBlock pos).2)
  | .write pos block => ([], b.writeBlock pos block)
  | .setCacheSize v => ([], { b with cacheSize := v })

/-- What the reads of a run give, and the state after it. -/
def blockRun (b : Isamb) : List BlockOp → List (Option DiskBlock) × Isamb
  | [] => ([], b)
  | op :: ops =>
    let (reads, b) := op.step b
    let (later, b) := blockRun b ops
    (reads ++ later, b)

/-- The same on blocks that are nowhere but in memory. -/
def BlockOp.onMemory (memory : Nat → Option DiskBlock) :
    BlockOp → List (Option DiskBlock) × (Nat → Option DiskBlock)
  | .read pos => ([memory pos], memory)
  | .write pos block => ([], Function.update memory pos (some block))
  | .setCacheSize _ => ([], memory)

def memoryRun (memory : Nat → Option DiskBlock) :
    List BlockOp → List (Option DiskBlock) × (Nat → Option DiskBlock)
  | [] => ([], memory)
  | op :: ops =>
    let (reads, memory) := op.onMemory memory
    let (later, memory) := memoryRun memory ops
    (reads ++ later, memory)

/-- The blocks that an operation names are in a file that is open. -/
def BlockOp.Inside (b : Isamb) : BlockOp → Prop
  | .read pos => pos % catMax < b.noCat
  | .write pos _ => pos % catMax < b.noCat
  | .setCacheSize _ => True

/-- The cache is used, with blocks whose size divides that of an entry. -/
structure Caching (b : Isamb) : Prop where
  cache : b.cache = true
  divides : ∀ cat < b.noCat, (b.file cat).head.blockSize ∣ isambCacheEntrySize
  sound : ∀ cat < b.noCat, CacheSound (b.file cat)

variable {b : Isamb}

theorem Caching.setCacheSize (caching : Caching b) (v : Nat) : Caching { b with cacheSize := v } :=
  ⟨caching.cache, caching.divides, caching.sound⟩

theorem file_setFile_self (b : Isamb) (cat : Nat) (f : IsambFile) :
    (b.setFile cat f).file cat = f := by
  simp [Isamb.setFile]

theorem file_setFile_of_ne (b : Isamb) {cat other : Nat} (f : IsambFile) (ne : other ≠ cat) :
    (b.setFile cat f).file other = b.file other := by
  simp [Isamb.setFile, ne]

/-- A file is replaced by one that has the same header and a sound cache. -/
theorem Caching.setFile (caching : Caching b) {cat : Nat} {f : IsambFile}
    (head : f.head = (b.file cat).head) (sound : CacheSound f) : Caching (b.setFile cat f) where
  cache := caching.cache
  divides other low := by
    rcases eq_or_ne other cat with rfl | ne
    · rw [file_setFile_self, head]
      exact caching.divides other low
    · rw [file_setFile_of_ne b f ne]
      exact caching.divides other low
  sound other low := by
    rcases eq_or_ne other cat with rfl | ne
    · rw [file_setFile_self]
      exact sound
    · rw [file_setFile_of_ne b f ne]
      exact caching.sound other low

variable {pos : Nat}

theorem Caching.readBlock (caching : Caching b) (inside : pos % catMax < b.noCat) :
    (b.readBlock pos).1 = b.view pos ∧ (b.readBlock pos).2.view = b.view ∧
      Caching (b.readBlock pos).2 ∧ (b.readBlock pos).2.noCat = b.noCat := by
  obtain ⟨read, sound, head, contents⟩ :=
    cacheRead_spec (caching.sound _ inside) b.cacheSize pos
  have after : b.readBlock pos = ((cacheRead b.cacheSize (b.file (pos % catMax)) pos).1,
      b.setFile (pos % catMax) (cacheRead b.cacheSize (b.file (pos % catMax)) pos).2) :=
    if_pos caching.cache
  rw [after]
  refine ⟨?_, ?_, caching.setFile head sound, rfl⟩
  · rw [read, view]
    exact (if_pos caching.cache).symm
  · funext q
    have cached := caching.cache
    rcases eq_or_ne (q % catMax) (pos % catMax) with same_cat | other_cat
    · simp [view, Isamb.setFile, cached, same_cat, contents, cacheNorm, cacheSlot, head]
    · simp [view, Isamb.setFile, cached, Function.update_of_ne other_cat]

theorem Caching.writeBlock (caching : Caching b)
    (inside : pos % catMax < b.noCat) (block : DiskBlock) :
    (b.writeBlock pos block).view = Function.update b.view pos (some block) ∧
      Caching (b.writeBlock pos block) ∧ (b.writeBlock pos block).noCat = b.noCat := by
  obtain ⟨sound, head, _⟩ := cacheWrite_spec (caching.sound _ inside) b.cacheSize pos block
  have after : b.writeBlock pos block = b.setFile (pos % catMax)
      (cacheWrite b.cacheSize (b.file (pos % catMax)) pos block) := if_pos caching.cache
  have view := view_writeBlock_of_size (caching.divides _ inside)
    (fun _ => caching.sound _ inside) block
  rw [after] at view ⊢
  exact ⟨view, caching.setFile head sound, rfl⟩

/-- One operation does with the blocks what it does with blocks in memory. -/
theorem Caching.step {b : Isamb} (caching : Caching b) {op : BlockOp} (inside : op.Inside b) :
    (op.step b).1 = (op.onMemory b.view).1 ∧ (op.step b).2.view = (op.onMemory b.view).2 ∧
      Caching (op.step b).2 ∧ (op.step b).2.noCat = b.noCat := by
  cases op with
  | read pos =>
    obtain ⟨read, view, caching', noCat⟩ := caching.readBlock inside
    exact ⟨congrArg (fun block => [block]) read, view, caching', noCat⟩
  | write pos block =>
    obtain ⟨view, caching', noCat⟩ := caching.writeBlock inside block
    exact ⟨rfl, view, caching', noCat⟩
  | setCacheSize v => exact ⟨rfl, rfl, caching.setCacheSize v, rfl⟩

theorem BlockOp.Inside.congr {b' : Isamb} {op : BlockOp} (inside : op.Inside b)
    (noCat : b'.noCat = b.noCat) : op.Inside b' := by
  cases op with
  | read pos => exact lt_of_lt_of_eq inside noCat.symm
  | write pos block => exact lt_of_lt_of_eq inside noCat.symm
  | setCacheSize v => exact trivial

theorem Caching.run (caching : Caching b) {ops : List BlockOp} (inside : ∀ op ∈ ops, op.Inside b) :
    (blockRun b ops).1 = (memoryRun b.view ops).1 ∧
      (blockRun b ops).2.view = (memoryRun b.view ops).2 ∧
      Caching (blockRun b ops).2 ∧ (blockRun b ops).2.noCat = b.noCat := by
  induction ops generalizing b with
  | nil => exact ⟨rfl, rfl, caching, rfl⟩
  | cons op ops induction =>
    obtain ⟨reads, view, caching', noCat⟩ := caching.step (inside op (List.mem_cons_self ..))
    obtain ⟨later, view', caching'', noCat'⟩ := induction caching' fun other mem =>
      (inside other (List.mem_cons_of_mem _ mem)).congr noCat
    rw [view] at later view'
    refine ⟨?_, view', caching'', noCat'.trans noCat⟩
    rw [blockRun, memoryRun]
    exact congrArg₂ (· ++ ·) reads later

theorem Caching.flushBlocks (caching : Caching b) (inside : pos % catMax < b.noCat) :
    (Isamb.flushBlocks (b.file (pos % catMax))).bf (cacheNorm (b.file (pos % catMax)) pos)
      (cacheSlot (b.file (pos % catMax)) pos) = b.view pos := by
  rw [flushBlocks_bf (caching.sound _ inside), view]
  exact (if_pos caching.cache).symm

/-- Whatever is done with blocks of files that are opened with the cache: what is read is what has
last been written, the files have it after they are flushed, and the bytes of different blocks are
different places of them. -/
theorem block_cache_transparent (b : Isamb) (cached : b.cache = true)
    (divides : ∀ cat < b.noCat, (b.file cat).head.blockSize ∣ isambCacheEntrySize)
    (opened : ∀ cat, (b.file cat).cacheEntries = []) (ops : List BlockOp)
    (inside : ∀ op ∈ ops, op.Inside b) :
    (blockRun b ops).1 = (memoryRun b.view ops).1 ∧
      ∀ pos, pos % catMax < b.noCat →
        let f := (blockRun b ops).2.file (pos % catMax)
        (flushBlocks f).bf (cacheNorm f pos) (cacheSlot f pos) = (memoryRun b.view ops).2 pos ∧
          cacheOff f pos + f.head.blockSize ≤ isambCacheEntrySize ∧
          ∀ q, q % catMax = pos % catMax → q ≠ pos → cacheNorm f q = cacheNorm f pos →
            cacheOff f q + f.head.blockSize ≤ cacheOff f pos ∨
              cacheOff f pos + f.head.blockSize ≤ cacheOff f q := by
  have start : Caching b := by
    refine ⟨cached, divides, fun cat _ => ⟨?_, ?_⟩⟩
    · rw [opened cat]
      exact List.nodup_nil
    · intro entry mem
      rw [opened cat] at mem
      cases mem
  obtain ⟨reads, view, caching, noCat⟩ := start.run inside
  refine ⟨reads, fun pos low => ?_⟩
  rw [← noCat] at low
  have small := caching.divides _ low
  refine ⟨?_, cacheOff_le small pos, fun q same_cat other norm =>
    cacheOff_apart small same_cat norm other⟩
  rw [← view]
  exact caching.flushBlocks low

theorem block_cache_transparent_open :
    (blockRun (open2 true [32, 128, 512, 2048])
        [.setCacheSize 1, .write 4100 (.free 7), .read 8196, .read 4100]).1 =
      (memoryRun (open2 true [32, 128, 512, 2048]).view
        [.setCacheSize 1, .write 4100 (.free 7), .read 8196, .read 4100]).1 :=
  (block_cache_transparent (open2 true [32, 128, 512, 2048]) rfl (by decide) (fun _ => rfl)
    [.setCacheSize 1, .write 4100 (.free 7), .read 8196, .read 4100] (by
      intro op mem
      simp only [List.mem_cons, List.not_mem_nil, or_false] at mem
      rcases mem with rfl | rfl | rfl | rfl
      · exact trivial
      all_goals exact (by decide : 0 < 4))).1

end Zebra.Isamb
