import Mathlib.Data.List.GetD
import Zebra.Lib.Fuel
import Zebra.Isamb.Header
import Zebra.Isamb.Merge

/-!
# What every operation keeps

Whatever is merged, unlinked or read, with any method and any block sizes, data stays away from the
blocks that hold the headers, and a header that is not dirty is the one that is on disk.  Nothing
about the trees is needed: a block is opened only if it holds one, and only blocks that have been
opened or handed out are written.
-/

namespace Zebra

open Function List Isamb

/-- Whether a block on disk is one of a list or a free list. -/
def DiskBlock.IsData : DiskBlock → Prop
  | .used .. => True
  | .free _ => True
  | .raw _ => False

/-- A link to the next free block is the position of one. -/
def DiskBlock.Linked : DiskBlock → Prop
  | .free next => next < 2 ^ 80
  | _ => True

namespace Isamb

/-- Sizes that an ISAMB may be opened with. -/
structure Openable (sizes : List Nat) : Prop where
  ne : sizes ≠ []
  /-- There are at most `CAT_MAX` of them. -/
  count_le : sizes.length ≤ catMax
  ge : ∀ size ∈ sizes, 32 ≤ size
  dvd : ∀ size ∈ sizes, size ∣ isambCacheEntrySize

structure OpenMode where
  /-- Whether it is opened for writing. -/
  writeflag : Bool
  /-- Whether the cache is used. -/
  cache : Bool
  /-- Block sizes of the categories. -/
  sizes : List Nat
  /-- Whether the headers hold a root pointer. -/
  useRootPtr : Bool

def OpenMode.size (mode : OpenMode) (cat : Nat) : Nat := mode.sizes.getD cat 0

def OpenMode.reserved (mode : OpenMode) (cat : Nat) : Nat :=
  if mode.cache then 1 else isambCacheEntrySize / mode.size cat + 1

structure FileKept (mode : OpenMode) (cat rootPtr : Nat) (f : IsambFile) : Prop where
  sound : CacheSound f
  uncached : mode.cache = false → f.cacheEntries = []
  entries : ∀ entry ∈ f.cacheEntries, entry.pos ≠ 0
  data : ∀ k slot block, blocksAt f k slot = some block → block.IsData →
    mode.reserved cat ≤ k ∧ k < 2 ^ 63 ∧ block.Linked
  blockSize : f.head.blockSize = mode.size cat
  blockMax : f.head.blockMax = (newHead mode.sizes.length cat (mode.size cat)).blockMax
  blockOffset : f.head.blockOffset = (newHead mode.sizes.length cat (mode.size cat)).blockOffset
  firstBlock : f.head.firstBlock = isambCacheEntrySize / mode.size cat + 1
  first_le : f.head.firstBlock ≤ f.head.lastBlock
  last_le : f.head.lastBlock ≤ 2 ^ 63
  free_lt : f.head.freeList < 2 ^ 80
  clean : f.headDirty = false → ∃ root : Option Nat, root.getD 0 = rootPtr ∧
    ∀ (writeflag : Bool) (bf : BlockFile), (∀ k < mode.reserved cat, bf k = f.bf k) →
      openFile mode.sizes.length cat (mode.size cat) writeflag mode.useRootPtr bf =
        .ok ({ bf, head := f.head, cacheEntries := [],
               headDirty := mode.useRootPtr && writeflag }, root)
  rewritten : mode.useRootPtr = true → mode.writeflag = true → f.headDirty = true

structure Kept (mode : OpenMode) (b : Isamb) : Prop where
  noCat : b.noCat = mode.sizes.length
  cache : b.cache = mode.cache
  useRootPtr : b.useRootPtr = mode.useRootPtr
  root_lt : b.rootPtr < 2 ^ 63
  no_root : mode.useRootPtr = false → b.rootPtr = 0
  file : ∀ cat < mode.sizes.length, FileKept mode cat b.rootPtr (b.file cat)
  elsewhere : ∀ cat, mode.sizes.length ≤ cat → (b.file cat).cacheEntries = [] ∧
    (b.file cat).head = newHead mode.sizes.length cat (mode.size cat) ∧
    ∀ k slot block, (b.file cat).bf k slot = some block → ¬block.IsData

section

variable {mode : OpenMode} {cat rootPtr : Nat} {f : IsambFile}

theorem fetchEntry_frame (f : IsambFile) (cacheSize norm : Nat) :
    (fetchEntry cacheSize f norm).2.headDirty = f.headDirty ∧
      (∀ entry ∈ (fetchEntry cacheSize f norm).2.cacheEntries, entry ∈ f.cacheEntries) ∧
      ∀ k, (∀ entry ∈ f.cacheEntries, entry.pos ≠ k) →
        (fetchEntry cacheSize f norm).2.bf k = f.bf k := by
  unfold fetchEntry
  cases f.cacheEntries.find? (·.pos = norm) with
  | some entry => exact ⟨rfl, fun other mem => eraseP_subset mem, fun _ _ => rfl⟩
  | none =>
    by_cases full : cacheSize ≤ f.cacheEntries.length
    · cases last : f.cacheEntries.getLast? with
      | none =>
        simp only [full, if_true]
        exact ⟨trivial, fun _ mem => mem, fun _ _ => trivial⟩
      | some entry =>
        simp only [full, if_true]
        refine ⟨?_, fun other mem => (dropLast_sublist _).subset mem, fun k absent => ?_⟩
        · unfold writeEntry
          split <;> rfl
        · exact writeEntry_bf_of_ne (absent entry (mem_of_getLast? last)).symm
    · simp only [full, if_false]
      exact ⟨trivial, fun _ mem => mem, fun _ _ => trivial⟩

/-- A change of cache and data that leaves the headers alone. -/
theorem FileKept.congr (kept : FileKept mode cat rootPtr f) {f' : IsambFile} (sound : CacheSound f')
    (uncached : mode.cache = false → f'.cacheEntries = [])
    (entries : ∀ entry ∈ f'.cacheEntries, entry.pos ≠ 0)
    (data : ∀ k slot block, blocksAt f' k slot = some block → block.IsData →
      mode.reserved cat ≤ k ∧ k < 2 ^ 63 ∧ block.Linked)
    (head : f'.head = f.head) (headDirty : f'.headDirty = f.headDirty)
    (bf : ∀ k < mode.reserved cat, f'.bf k = f.bf k) : FileKept mode cat rootPtr f' where
  sound := sound
  uncached := uncached
  entries := entries
  data := data
  blockSize := head ▸ kept.blockSize
  blockMax := head ▸ kept.blockMax
  blockOffset := head ▸ kept.blockOffset
  firstBlock := head ▸ kept.firstBlock
  first_le := head ▸ kept.first_le
  last_le := head ▸ kept.last_le
  free_lt := head ▸ kept.free_lt
  clean is_clean := by
    obtain ⟨root, root_eq, reads⟩ := kept.clean (headDirty ▸ is_clean)
    refine ⟨root, root_eq, fun writeflag bf' same => ?_⟩
    rw [head]
    exact reads writeflag bf' fun k lt => (same k lt).trans (bf k lt)
  rewritten use write := headDirty.trans (kept.rewritten use write)

theorem FileKept.reserved_cached (cached : mode.cache = true) : mode.reserved cat = 1 := by
  rw [OpenMode.reserved, if_pos cached]

theorem FileKept.cacheRead (kept : FileKept mode cat rootPtr f) (cached : mode.cache = true)
    {pos : Nat} (cacheSize : Nat) (norm_ne : cacheNorm f pos ≠ 0) :
    FileKept mode cat rootPtr (cacheRead cacheSize f pos).2 := by
  obtain ⟨-, sound, head, contents⟩ := cacheRead_spec kept.sound cacheSize pos
  obtain ⟨dirty, sub, frame⟩ := fetchEntry_frame f cacheSize (cacheNorm f pos)
  have fetched := fetchEntry_spec kept.sound cacheSize (cacheNorm f pos)
  refine kept.congr sound (fun off => ?_) ?_ ?_ head dirty ?_
  · rw [cached] at off
    cases off
  · intro entry mem
    rcases mem_cons.mp mem with same | mem
    · exact same ▸ fetched.pos.trans_ne norm_ne
    · exact kept.entries entry (sub entry mem)
  · rw [contents]
    exact kept.data
  · intro k lt
    rw [FileKept.reserved_cached cached] at lt
    obtain rfl := Nat.lt_one_iff.mp lt
    exact frame 0 kept.entries

theorem FileKept.cacheWrite (kept : FileKept mode cat rootPtr f) (cached : mode.cache = true)
    {pos : Nat} (cacheSize : Nat) {block : DiskBlock}
      (norm_ge : mode.reserved cat ≤ cacheNorm f pos)
    (norm_lt : cacheNorm f pos < 2 ^ 63) (linked : block.Linked) :
    FileKept mode cat rootPtr (cacheWrite cacheSize f pos block) := by
  obtain ⟨sound, head, contents⟩ := cacheWrite_spec kept.sound cacheSize pos block
  obtain ⟨dirty, sub, frame⟩ := fetchEntry_frame f cacheSize (cacheNorm f pos)
  have fetched := fetchEntry_spec kept.sound cacheSize (cacheNorm f pos)
  have norm_pos : cacheNorm f pos ≠ 0 := by
    rw [FileKept.reserved_cached cached] at norm_ge
    exact Nat.one_le_iff_ne_zero.mp norm_ge
  refine kept.congr sound (fun off => ?_) ?_ ?_ head dirty ?_
  · rw [cached] at off
    cases off
  · intro entry mem
    rcases mem_cons.mp mem with same | mem
    · exact same ▸ fetched.pos.trans_ne norm_pos
    · exact kept.entries entry (sub entry mem)
  · rw [contents]
    intro k slot other at_k is_data
    by_cases same : k = cacheNorm f pos
    · subst same
      rw [update_self] at at_k
      refine ⟨norm_ge, norm_lt, ?_⟩
      by_cases at_slot : slot = cacheSlot f pos
      · subst at_slot
        rw [update_self] at at_k
        cases at_k
        exact linked
      · rw [update_of_ne at_slot] at at_k
        exact (kept.data _ slot other at_k is_data).2.2
    · rw [update_of_ne same] at at_k
      exact kept.data k slot other at_k is_data
  · intro k lt
    rw [FileKept.reserved_cached cached] at lt
    obtain rfl := Nat.lt_one_iff.mp lt
    exact frame 0 kept.entries

theorem blocksAt_uncached (empty : f.cacheEntries = []) : blocksAt f = f.bf := by
  funext k
  rw [blocksAt, empty]
  rfl

theorem FileKept.bfWrite (kept : FileKept mode cat rootPtr f) (off : mode.cache = false) {k : Nat}
    {block : DiskBlock} (ge : mode.reserved cat ≤ k) (lt : k < 2 ^ 63) (linked : block.Linked) :
    FileKept mode cat rootPtr
      { f with bf := update f.bf k (update (f.bf k) 0 (some block)) } := by
  have empty := kept.uncached off
  refine kept.congr ⟨kept.sound.nodup, fun entry mem => ?_⟩
    (fun _ => empty) kept.entries ?_ rfl rfl ?_
  · rw [empty] at mem
    cases mem
  · intro other slot found at_other is_data
    have old := kept.data
    rw [blocksAt_uncached empty] at old
    rw [blocksAt_uncached (by exact empty)] at at_other
    change update f.bf k _ other slot = _ at at_other
    by_cases same : other = k
    · subst same
      rw [update_self] at at_other
      refine ⟨ge, lt, ?_⟩
      by_cases at_slot : slot = 0
      · subst at_slot
        rw [update_self] at at_other
        cases at_other
        exact linked
      · rw [update_of_ne at_slot] at at_other
        exact (old _ slot found at_other is_data).2.2
    · rw [update_of_ne same] at at_other
      exact old other slot found at_other is_data
  · intro other other_lt
    exact update_of_ne (by omega) ..

theorem FileKept.setHead (kept : FileKept mode cat rootPtr f) {head : IsambHead}
    (blockSize : head.blockSize = f.head.blockSize) (blockMax : head.blockMax = f.head.blockMax)
    (blockOffset : head.blockOffset = f.head.blockOffset)
    (firstBlock : head.firstBlock = f.head.firstBlock)
    (last : f.head.lastBlock ≤ head.lastBlock) (last_le : head.lastBlock ≤ 2 ^ 63)
    (free_lt : head.freeList < 2 ^ 80) :
    FileKept mode cat rootPtr { f with head, headDirty := true } where
  sound := ⟨kept.sound.nodup, kept.sound.clean⟩
  uncached := kept.uncached
  entries := kept.entries
  data := kept.data
  blockSize := blockSize.trans kept.blockSize
  blockMax := blockMax.trans kept.blockMax
  blockOffset := blockOffset.trans kept.blockOffset
  firstBlock := firstBlock.trans kept.firstBlock
  first_le := (firstBlock ▸ kept.first_le).trans last
  last_le := last_le
  free_lt := free_lt
  clean := nofun
  rewritten _ _ := rfl

end

/-- The block of the file that has a position's block. -/
def OpenMode.block (mode : OpenMode) (pos : Nat) : Nat :=
  if mode.cache then pos / ((catMax - 1) * isambCacheEntrySize / mode.size (pos % catMax))
  else pos / catMax

/-- A position where a block may be. -/
structure Placed (mode : OpenMode) (pos : Nat) : Prop where
  cat_lt : pos % catMax < mode.sizes.length
  ge : mode.reserved (pos % catMax) ≤ mode.block pos
  lt : mode.block pos < 2 ^ 63

section

variable {mode : OpenMode} {b : Isamb} {pos cat : Nat}

theorem Openable.size_ge (openable : Openable mode.sizes) (cat_lt : cat < mode.sizes.length) :
    32 ≤ mode.size cat ∧ mode.size cat ∣ isambCacheEntrySize := by
  have mem : mode.size cat ∈ mode.sizes := by
    rw [OpenMode.size, getD_eq_getElem _ _ cat_lt]
    exact getElem_mem cat_lt
  exact ⟨openable.ge _ mem, openable.dvd _ mem⟩

/-- A cache entry of three quarters of the blocks that fit. -/
theorem Openable.divisor (openable : Openable mode.sizes) (cat_lt : cat < mode.sizes.length) :
    (catMax - 1) * isambCacheEntrySize / mode.size cat = 3 * (isambCacheEntrySize / mode.size cat) ∧
      1 ≤ isambCacheEntrySize / mode.size cat ∧ isambCacheEntrySize / mode.size cat ≤ 1024 := by
  obtain ⟨size_ge, dvd⟩ := openable.size_ge cat_lt
  refine ⟨Nat.mul_div_assoc 3 dvd, ?_, ?_⟩
  · exact (Nat.one_le_div_iff (by omega)).mpr (Nat.le_of_dvd (by decide) dvd)
  · exact Nat.div_le_of_le_mul (by rw [isambCacheEntrySize]; omega)

theorem Placed.lt_pow (placed : Placed mode pos) (openable : Openable mode.sizes) :
    pos < 2 ^ 80 := by
  have lt := placed.lt
  obtain ⟨divisor, ge, le⟩ := openable.divisor placed.cat_lt
  rw [OpenMode.block] at lt
  split at lt
  · rw [divisor] at lt
    have below := Nat.lt_mul_of_div_lt lt (by omega)
    exact below.trans_le (Nat.mul_le_mul_left _ (Nat.mul_le_mul_left 3 le) |>.trans (by decide))
  · simp only [catMax] at lt
    omega

/-- A block of the file of a category behind the header. -/
theorem Placed.of_number (openable : Openable mode.sizes) {number : Nat}
    (cat_lt : cat < mode.sizes.length) (ge : isambCacheEntrySize / mode.size cat + 1 ≤ number)
    (lt : number * catMax + cat < 2 ^ 63) : Placed mode (number * catMax + cat) := by
  have cat_small : cat < catMax := cat_lt.trans_le openable.count_le
  have in_cat : (number * catMax + cat) % catMax = cat := by
    simp only [catMax] at cat_small ⊢
    omega
  obtain ⟨divisor, one_le, -⟩ := openable.divisor cat_lt
  refine ⟨in_cat.symm ▸ cat_lt, ?_, ?_⟩
  · rw [in_cat, OpenMode.reserved, OpenMode.block, in_cat, divisor]
    split
    · refine (Nat.one_le_div_iff (by omega)).mpr ?_
      simp only [catMax]
      omega
    · simp only [catMax] at cat_small ⊢
      omega
  · rw [OpenMode.block]
    split
    · exact (Nat.div_le_self _ _).trans_lt lt
    · exact (Nat.div_le_self _ _).trans_lt lt

theorem Kept.block_eq (kept : Kept mode b) (cat_lt : pos % catMax < mode.sizes.length) :
    (if mode.cache then cacheNorm (b.file (pos % catMax)) pos else pos / catMax) =
      mode.block pos := by
  rw [OpenMode.block, cacheNorm, (kept.file _ cat_lt).blockSize]

theorem Kept.placed (kept : Kept mode b) {block : DiskBlock} (at_pos : b.view pos = some block)
    (is_data : block.IsData) : Placed mode pos ∧ block.Linked := by
  by_cases cat_lt : pos % catMax < mode.sizes.length
  · have file := kept.file _ cat_lt
    have found : blocksAt (b.file (pos % catMax)) (mode.block pos)
        (if b.cache then cacheSlot (b.file (pos % catMax)) pos else 0) = some block := by
      rw [← kept.block_eq cat_lt, ← kept.cache]
      cases cached : b.cache with
      | true => simpa [view, cached] using at_pos
      | false =>
        rw [blocksAt_uncached (file.uncached (kept.cache ▸ cached))]
        simpa [view, cached] using at_pos
    obtain ⟨ge, lt, linked⟩ := file.data _ _ _ found is_data
    exact ⟨⟨cat_lt, ge, lt⟩, linked⟩
  · exfalso
    obtain ⟨empty, -, none_data⟩ := kept.elsewhere _ (Nat.le_of_not_lt cat_lt)
    have found : ∃ k slot, (b.file (pos % catMax)).bf k slot = some block := by
      rw [view] at at_pos
      split at at_pos
      · rw [blocksAt_uncached empty] at at_pos
        exact ⟨_, _, at_pos⟩
      · exact ⟨_, _, at_pos⟩
    obtain ⟨k, slot, at_k⟩ := found
    exact none_data k slot block at_k is_data

theorem Kept.setFile (kept : Kept mode b) {f : IsambFile} (cat_lt : cat < mode.sizes.length)
    (file : FileKept mode cat b.rootPtr f) : Kept mode (b.setFile cat f) where
  noCat := kept.noCat
  cache := kept.cache
  useRootPtr := kept.useRootPtr
  root_lt := kept.root_lt
  no_root := kept.no_root
  file other other_lt := by
    by_cases same : other = cat
    · subst same
      change FileKept mode other b.rootPtr (update b.file other f other)
      rw [update_self]
      exact file
    · change FileKept mode other b.rootPtr (update b.file cat f other)
      rw [update_of_ne same]
      exact kept.file other other_lt
  elsewhere other other_ge := by
    have differ : other ≠ cat := by omega
    change (update b.file cat f other).cacheEntries = [] ∧
      (update b.file cat f other).head = _ ∧ ∀ k slot block,
        (update b.file cat f other).bf k slot = some block → ¬block.IsData
    rw [update_of_ne differ]
    exact kept.elsewhere other other_ge

theorem Kept.sound (kept : Kept mode b) (cat : Nat) : CacheSound (b.file cat) := by
  by_cases cat_lt : cat < mode.sizes.length
  · exact (kept.file cat cat_lt).sound
  · obtain ⟨empty, -, -⟩ := kept.elsewhere cat (Nat.le_of_not_lt cat_lt)
    exact ⟨by rw [empty]; exact nodup_nil, by rw [empty]; nofun⟩

theorem Kept.readBlock_fst (kept : Kept mode b) (pos : Nat) : (b.readBlock pos).1 = b.view pos := by
  unfold readBlock view
  split
  · exact (cacheRead_spec (kept.sound _) b.cacheSize pos).1
  · rfl

theorem Kept.head_readBlock (kept : Kept mode b) (pos cat : Nat) :
    ((b.readBlock pos).2.file cat).head = (b.file cat).head := by
  unfold Isamb.readBlock
  split
  · by_cases same : cat = pos % catMax
    · subst same
      change (update b.file _ _ _).head = _
      rw [update_self]
      exact (cacheRead_spec (kept.sound _) b.cacheSize pos).2.2.1
    · change (update b.file _ _ _).head = _
      rw [update_of_ne same]
  · rfl

theorem Kept.readBlock (kept : Kept mode b) (placed : Placed mode pos) :
    Kept mode (b.readBlock pos).2 := by
  unfold Isamb.readBlock
  split
  · next cached =>
    have mode_cached : mode.cache = true := kept.cache ▸ cached
    refine kept.setFile placed.cat_lt ((kept.file _ placed.cat_lt).cacheRead mode_cached _ ?_)
    have ge := placed.ge
    rw [FileKept.reserved_cached mode_cached, ← kept.block_eq placed.cat_lt,
      if_pos mode_cached] at ge
    exact Nat.one_le_iff_ne_zero.mp ge
  · exact kept

theorem Kept.writeBlock (kept : Kept mode b) (placed : Placed mode pos) {block : DiskBlock}
    (linked : block.Linked) : Kept mode (b.writeBlock pos block) := by
  have ge := placed.ge
  have lt := placed.lt
  rw [← kept.block_eq placed.cat_lt] at ge lt
  unfold Isamb.writeBlock
  split
  · next cached =>
    have mode_cached : mode.cache = true := kept.cache ▸ cached
    rw [if_pos mode_cached] at ge lt
    exact kept.setFile placed.cat_lt
      ((kept.file _ placed.cat_lt).cacheWrite mode_cached b.cacheSize ge lt linked)
  · next uncached =>
    have mode_uncached : mode.cache = false := kept.cache ▸ Bool.eq_false_iff.mpr uncached
    rw [mode_uncached] at ge lt
    exact kept.setFile placed.cat_lt
      ((kept.file _ placed.cat_lt).bfWrite mode_uncached ge lt linked)

theorem Kept.setHead (kept : Kept mode b) {head : IsambHead} (cat_lt : cat < mode.sizes.length)
    (blockSize : head.blockSize = (b.file cat).head.blockSize)
    (blockMax : head.blockMax = (b.file cat).head.blockMax)
    (blockOffset : head.blockOffset = (b.file cat).head.blockOffset)
    (firstBlock : head.firstBlock = (b.file cat).head.firstBlock)
    (last : (b.file cat).head.lastBlock ≤ head.lastBlock) (last_le : head.lastBlock ≤ 2 ^ 63)
    (free_lt : head.freeList < 2 ^ 80) : Kept mode (b.setHead cat head) :=
  kept.setFile cat_lt ((kept.file cat cat_lt).setHead blockSize blockMax blockOffset firstBlock last
    last_le free_lt)

end

/-- A block in memory that may be written. -/
structure PlacedBlock {Code : Type} (mode : OpenMode) (p : Block Code) : Prop where
  placed : Placed mode p.pos
  cat : p.cat = p.pos % catMax

section

variable {Item Code : Type} {m : IsamcM Item Code} {mode : OpenMode} {b b' : Isamb}
  {p : Block Code} {pos cat : Nat}

theorem Kept.openBlock (kept : Kept mode b) (run : openBlock m b pos = .ok (p, b')) :
    Kept mode b' ∧ PlacedBlock mode p ∧ p.pos = pos := by
  rw [Isamb.openBlock] at run
  split at run
  · cases run
  have fst := kept.readBlock_fst pos
  cases read : b.readBlock pos with
  | mk block b₁ =>
    rw [read] at run fst
    cases block with
    | none => cases run
    | some block =>
      cases block with
      | free next => cases run
      | raw bytes => cases run
      | used leaf noItems bytes =>
        have placed := (kept.placed fst.symm trivial).1
        have kept₁ := kept.readBlock placed
        rw [read] at kept₁
        dsimp only at run
        split at run
        · cases run
          exact ⟨kept₁, ⟨placed, rfl⟩, rfl⟩
        · cases run

theorem Kept.allocate (kept : Kept mode b) (openable : Openable mode.sizes)
    (cat_lt : cat < mode.sizes.length) (run : b.allocate cat = .ok (pos, b')) :
    Kept mode b' ∧ Placed mode pos ∧ pos % catMax = cat := by
  have file := kept.file cat cat_lt
  have cat_small : cat < catMax := cat_lt.trans_le openable.count_le
  rw [Isamb.allocate] at run
  dsimp only at run
  split at run
  · split at run
    · next small =>
      cases run
      have placed := Placed.of_number openable cat_lt
        (file.firstBlock ▸ file.first_le) small
      have free_lt := file.free_lt
      refine ⟨kept.setHead cat_lt rfl rfl rfl rfl (Nat.le_succ _) ?_ free_lt, placed, ?_⟩
      · simp only [catMax] at small
        dsimp only
        omega
      · simp only [catMax] at cat_small ⊢
        omega
    · cases run
  · split at run
    · cases run
    · next in_cat =>
      have in_cat := not_not.mp in_cat
      have fst := kept.readBlock_fst (b.file cat).head.freeList
      cases read : b.readBlock (b.file cat).head.freeList with
      | mk block b₁ =>
        rw [read] at run fst
        cases block with
        | none => cases run
        | some block =>
          cases block with
          | used leaf noItems bytes => cases run
          | raw bytes => cases run
          | free next =>
            cases run
            obtain ⟨placed, linked⟩ := kept.placed fst.symm trivial
            have kept₁ := kept.readBlock placed
            have head := kept.head_readBlock (b.file cat).head.freeList cat
            rw [read] at kept₁ head
            have last_le := file.last_le
            rw [← head] at last_le ⊢
            exact ⟨kept₁.setHead cat_lt rfl rfl rfl rfl le_rfl last_le linked,
              head ▸ placed, head ▸ in_cat⟩

theorem Kept.newBlock (kept : Kept mode b) (openable : Openable mode.sizes) {leaf : Bool}
    (cat_lt : cat < mode.sizes.length) (run : newBlock m b leaf cat = .ok (p, b')) :
    Kept mode b' ∧ PlacedBlock mode p := by
  obtain ⟨⟨pos, b₁⟩, allocated, rest⟩ := bind_eq_ok run
  cases rest
  obtain ⟨kept', placed, in_cat⟩ := kept.allocate openable cat_lt allocated
  exact ⟨kept', placed, in_cat.symm⟩

theorem Kept.closeBlock (kept : Kept mode b) (openable : Openable mode.sizes)
    (run : closeBlock m b p = .ok b') (block : PlacedBlock mode p) : Kept mode b' := by
  have cat_lt : p.cat < mode.sizes.length := block.cat ▸ block.placed.cat_lt
  have file := kept.file _ cat_lt
  rw [Isamb.closeBlock] at run
  split at run
  · cases run
    have kept₁ : Kept mode (b.setHead p.cat { (b.file p.cat).head with freeList := p.pos }) :=
      kept.setHead cat_lt rfl rfl rfl rfl le_rfl file.last_le (block.placed.lt_pow openable)
    exact kept₁.writeBlock block.placed file.free_lt
  · split at run
    · split at run
      · cases run
        exact kept.writeBlock block.placed trivial
      · cases run
    · cases run
      exact kept

end

section

variable {Item Code : Type} {m : IsamcM Item Code} {mode : OpenMode} {b b' : Isamb}

/-- What an insertion hands back is kept. -/
structure KeptDescent (mode : OpenMode) (r : Descent Item Code) : Prop where
  kept : Kept mode r.b
  block : PlacedBlock mode r.p
  sp : ∀ sp ∈ r.sp, PlacedBlock mode sp.1

theorem PlacedBlock.congr {p p' : Block Code} (block : PlacedBlock mode p) (pos : p'.pos = p.pos)
    (cat : p'.cat = p.cat) : PlacedBlock mode p' :=
  ⟨pos.symm ▸ block.placed, by rw [cat, pos, block.cat]⟩

theorem Kept.categoryFor_lt (kept : Kept mode b) (openable : Openable mode.sizes) (size : Nat) :
    b.categoryFor size < mode.sizes.length := by
  have pos := length_pos_of_ne_nil openable.ne
  rw [categoryFor, kept.noCat]
  cases found : (range mode.sizes.length).find? fun i => size ≤ b.blockMax i with
  | none => exact Nat.sub_one_lt_of_lt pos
  | some i => exact mem_range.mp (mem_of_find?_eq_some found)

theorem Kept.leafBlock (kept : Kept mode b) (openable : Openable mode.sizes)
    {p : Option (Block Code)} (block : ∀ q ∈ p, PlacedBlock mode q) {s : LeafState Item Code}
    {q : Block Code} (run : leafBlock m b p s = .ok (q, b')) :
      Kept mode b' ∧ PlacedBlock mode q := by
  cases p with
  | none => exact kept.newBlock openable (kept.categoryFor_lt openable _) run
  | some p =>
    have in_place : PlacedBlock mode { p with dirty := p.dirty || s.dirty } :=
      (block p rfl).congr rfl rfl
    rw [Isamb.leafBlock] at run
    dsimp only at run
    split at run
    · obtain ⟨b₁, closed, rest⟩ := bind_eq_ok run
      have kept₁ := kept.closeBlock openable closed (in_place.congr rfl rfl)
      exact kept₁.newBlock openable (kept₁.categoryFor_lt openable _) rest
    · cases run
      exact ⟨kept, in_place⟩

variable {r : Descent Item Code} {stream : Stream Item}

theorem Kept.insertLeaf (kept : Kept mode b) (openable : Openable mode.sizes)
    {p : Option (Block Code)} (block : ∀ q ∈ p, PlacedBlock mode q) {maxItem : Option Item}
    (run : insertLeaf m b p stream maxItem = .ok r) : KeptDescent mode r := by
  obtain ⟨s, -, rest⟩ := bind_eq_ok run
  obtain ⟨⟨q, b₁⟩, placed, rest⟩ := bind_eq_ok rest
  obtain ⟨kept₁, q_block⟩ := kept.leafBlock openable block placed
  dsimp only at rest
  split at rest
  · split at rest
    · cases rest
    · obtain ⟨⟨second, b₂⟩, new, rest⟩ := bind_eq_ok rest
      have cat_lt : q.cat < mode.sizes.length := q_block.cat ▸ q_block.placed.cat_lt
      obtain ⟨kept₂, second_block⟩ := kept₁.newBlock openable cat_lt new
      dsimp only at rest
      split at rest
      · cases rest
      · cases rest
        refine ⟨kept₂, q_block.congr rfl rfl, ?_⟩
        rintro _ ⟨⟩
        exact second_block.congr rfl rfl
  · cases rest
    exact ⟨kept₁, q_block.congr rfl rfl, nofun⟩

theorem Kept.countOf (kept : Kept mode b) (openable : Openable mode.sizes) {pos : Nat} {count : Int}
    (run : countOf m b pos = .ok (count, b')) : Kept mode b' := by
  rw [Isamb.countOf] at run
  split at run
  · obtain ⟨⟨p, b₁⟩, opened, rest⟩ := bind_eq_ok run
    obtain ⟨b₂, closed, rest⟩ := bind_eq_ok rest
    cases rest
    obtain ⟨kept₁, block, -⟩ := kept.openBlock opened
    exact kept₁.closeBlock openable closed block
  · cases run
    exact kept

theorem Kept.firstHalf (openable : Openable mode.sizes) {half size fuel : Nat} (kept : Kept mode b)
    {src rest : List Byte} {noItems count : Int}
    (run : firstHalf m half size fuel b src noItems = .ok (rest, count, b')) : Kept mode b' := by
  induction fuel generalizing b src noItems with
  | zero => cases run
  | succ fuel ih =>
    rw [firstHalf] at run
    split at run
    · cases run
      exact kept
    · split at run
      · cases run
      · obtain ⟨⟨count', b₁⟩, counted, run⟩ := bind_eq_ok run
        exact ih (kept.countOf openable counted) run

theorem Kept.splitInt (kept : Kept mode b) (openable : Openable mode.sizes)
    {p first second : Block Code}
    (block : PlacedBlock mode p) {dst : List Byte} {item : Item}
    (run : splitInt m b p dst = .ok (first, (second, item), b')) :
    Kept mode b' ∧ PlacedBlock mode first ∧ PlacedBlock mode second := by
  rw [Isamb.splitInt] at run
  dsimp only at run
  split at run
  · cases run
  · obtain ⟨⟨count, b₁⟩, counted, run⟩ := bind_eq_ok run
    obtain ⟨⟨src, noItems, b₂⟩, half, run⟩ := bind_eq_ok run
    dsimp only at run
    have kept₂ := (kept.countOf openable counted).firstHalf openable half
    split at run
    · cases run
    · obtain ⟨⟨sp, b₃⟩, new, run⟩ := bind_eq_ok run
      cases run
      obtain ⟨kept₃, sp_block⟩ := kept₂.newBlock openable (block.cat ▸ block.placed.cat_lt) new
      exact ⟨kept₃, block.congr rfl rfl, sp_block.congr rfl rfl⟩

theorem adjustCount_placed {p : Block Code} (block : PlacedBlock mode p) (diff : Int) :
    PlacedBlock mode (adjustCount p diff) := by
  rw [adjustCount]
  split
  · exact block
  · exact block.congr rfl rfl

theorem KeptDescent.joinChild {r r' : Descent Item Code} (below : KeptDescent mode r)
    (openable : Openable mode.sizes) {p child : Block Code} (block : PlacedBlock mode p)
    {src : List Byte} (run : joinChild m p src child r = .ok r') : KeptDescent mode r' := by
  rw [Isamb.joinChild] at run
  dsimp only at run
  have counted := adjustCount_placed block
    (r.p.noItems - child.noItems + (r.sp.map fun sp => sp.1.noItems).getD 0)
  split at run
  · obtain ⟨b₁, closed, run⟩ := bind_eq_ok run
    cases run
    exact ⟨below.kept.closeBlock openable closed below.block, counted, nofun⟩
  · next sub2 item split_eq =>
    obtain ⟨b₁, closed, run⟩ := bind_eq_ok run
    have kept₁ := below.kept.closeBlock openable closed (below.sp _ split_eq)
    split at run
    · obtain ⟨b₂, closed₂, run⟩ := bind_eq_ok run
      cases run
      exact ⟨kept₁.closeBlock openable closed₂ below.block, counted.congr rfl rfl, nofun⟩
    · obtain ⟨⟨first, ⟨second, sep⟩, b₂⟩, split_run, run⟩ := bind_eq_ok run
      obtain ⟨b₃, closed₃, run⟩ := bind_eq_ok run
      cases run
      obtain ⟨kept₂, first_block, second_block⟩ :=
        kept₁.splitInt openable (counted.congr rfl rfl) split_run
      refine ⟨kept₂.closeBlock openable closed₃ below.block, first_block, ?_⟩
      rintro _ ⟨⟩
      exact second_block

theorem Kept.insertSub (openable : Openable mode.sizes) {fuel : Nat} (kept : Kept mode b)
    {p : Block Code} (block : PlacedBlock mode p) {maxItem : Option Item}
      (run : insertSub m fuel b p stream maxItem = .ok r) :
    KeptDescent mode r := by
  induction fuel generalizing b p maxItem r with
  | zero => cases run
  | succ fuel ih =>
    rw [insertSub] at run
    split at run
    · refine kept.insertLeaf openable ?_ run
      rintro _ ⟨⟩
      exact block
    · rw [insertInt] at run
      split at run
      · cases run
      · split at run
        · cases run
        · obtain ⟨⟨child, b₁⟩, opened, run⟩ := bind_eq_ok run
          obtain ⟨below, sub_run, run⟩ := bind_eq_ok run
          obtain ⟨kept₁, child_block, -⟩ := kept.openBlock opened
          exact (ih kept₁ child_block sub_run).joinChild openable block run

theorem Kept.descend (kept : Kept mode b) (openable : Openable mode.sizes) {pos : Nat}
    (run : descend m b pos stream = .ok r) :
    KeptDescent mode r := by
  rw [Isamb.descend] at run
  split at run
  · exact kept.insertLeaf (p := none) openable nofun run
  · obtain ⟨⟨p, b₁⟩, opened, run⟩ := bind_eq_ok run
    obtain ⟨kept₁, block, -⟩ := kept.openBlock opened
    exact kept₁.insertSub openable block run

theorem KeptDescent.growRoot (below : KeptDescent mode r)
    (openable : Openable mode.sizes) {pos : Nat} (run : growRoot m r = .ok (pos, b')) :
    Kept mode b' := by
  rw [Isamb.growRoot] at run
  split at run
  · obtain ⟨b₁, closed, run⟩ := bind_eq_ok run
    cases run
    exact below.kept.closeBlock openable closed below.block
  · next sp item split_eq =>
    obtain ⟨⟨p2, b₁⟩, new, run⟩ := bind_eq_ok run
    obtain ⟨b₂, closed₂, run⟩ := bind_eq_ok run
    obtain ⟨b₃, closed₃, run⟩ := bind_eq_ok run
    obtain ⟨b₄, closed₄, run⟩ := bind_eq_ok run
    cases run
    obtain ⟨kept₁, p2_block⟩ :=
      below.kept.newBlock openable (below.block.cat ▸ below.block.placed.cat_lt) new
    have kept₂ := kept₁.closeBlock openable closed₂ (below.sp _ split_eq)
    have kept₃ := kept₂.closeBlock openable closed₃ (p2_block.congr rfl rfl)
    exact kept₃.closeBlock openable closed₄ below.block

theorem Kept.mergeLoop (openable : Openable mode.sizes) {fuel : Nat} (kept : Kept mode b)
    {pos pos' : Nat} {drop : Bool}
    (run : mergeLoop m fuel b pos stream = .ok (pos', drop, b')) : Kept mode b' := by
  induction fuel generalizing b pos stream with
  | zero => cases run
  | succ fuel ih =>
    obtain ⟨r, descended, run⟩ := bind_eq_ok run
    obtain ⟨⟨root, b₁⟩, grown, run⟩ := bind_eq_ok run
    have kept₁ := (kept.descend openable descended).growRoot openable grown
    dsimp only at run
    split at run
    · exact ih kept₁ run
    · cases run
      exact kept₁

theorem foldlM_kept {f : Isamb → Nat → Except Fault Isamb}
    (each : ∀ {b b' : Isamb} {pos : Nat}, Kept mode b → f b pos = .ok b' → Kept mode b')
    {kids : List Nat} (kept : Kept mode b) (run : kids.foldlM f b = .ok b') : Kept mode b' := by
  induction kids generalizing b with
  | nil =>
    cases run
    exact kept
  | cons kid kids ih =>
    rw [foldlM_cons] at run
    obtain ⟨b₁, first, rest⟩ := bind_eq_ok run
    exact ih (each kept first) rest

theorem Kept.unlink (openable : Openable mode.sizes) {fuel : Nat} (kept : Kept mode b) {pos : Nat}
    (run : unlink m fuel b pos = .ok b') : Kept mode b' := by
  induction fuel generalizing b b' pos with
  | zero => cases run
  | succ fuel ih =>
    rw [unlink] at run
    split at run
    · cases run
      exact kept
    · obtain ⟨⟨p, b₁⟩, opened, run⟩ := bind_eq_ok run
      obtain ⟨kept₁, block, -⟩ := kept.openBlock opened
      dsimp only at run
      split at run
      · obtain ⟨b₂, same, run⟩ := bind_eq_ok run
        cases same
        exact kept₁.closeBlock openable run (block.congr rfl rfl)
      · split at run
        · cases run
        · obtain ⟨b₂, below, run⟩ := bind_eq_ok run
          have kept₂ := foldlM_kept (fun kept run => ih kept run) kept₁ below
          exact kept₂.closeBlock openable run (block.congr rfl rfl)

/-- A merge, with whatever items, keeps headers and data apart. -/
theorem Kept.merge (kept : Kept mode b) (openable : Openable mode.sizes) {pos pos' : Nat}
    {items : List (Item × Nat)} (run : merge m b pos items = .ok (pos', b')) : Kept mode b' := by
  cases items with
  | nil =>
    cases run
    exact kept
  | cons op rest =>
    obtain ⟨item, mode'⟩ := op
    obtain ⟨⟨root, drop, b₁⟩, looped, run⟩ := bind_eq_ok run
    have kept₁ := kept.mergeLoop openable looped
    dsimp only at run
    split at run
    · obtain ⟨b₂, unlinked, run⟩ := bind_eq_ok run
      cases run
      exact kept₁.unlink openable unlinked
    · cases run
      exact kept₁

end

end Isamb

end Zebra
