import Zebra.Isamb.Alike
import Zebra.Isamb.History
import Zebra.Isamb.Persist

/-!
# An ISAMB survives closing and opening

In every run in which no header is closed that goes on behind the first block of a file of cache
entries, closing and opening restores everything: headers, root pointer, blocks and lists.
-/

namespace Zebra.Isamb

open List

variable {mode : OpenMode} {b b' c : Isamb}

def OpenMode.readOnly (mode : OpenMode) : OpenMode := { mode with writeflag := false }

theorem Kept.readOnly (kept : Kept mode b) : Kept mode.readOnly b where
  noCat := kept.noCat
  cache := kept.cache
  useRootPtr := kept.useRootPtr
  root_lt := kept.root_lt
  no_root := kept.no_root
  file cat cat_lt :=
    { sound := (kept.file cat cat_lt).sound
      uncached := (kept.file cat cat_lt).uncached
      entries := (kept.file cat cat_lt).entries
      data := (kept.file cat cat_lt).data
      blockSize := (kept.file cat cat_lt).blockSize
      blockMax := (kept.file cat cat_lt).blockMax
      blockOffset := (kept.file cat cat_lt).blockOffset
      firstBlock := (kept.file cat cat_lt).firstBlock
      first_le := (kept.file cat cat_lt).first_le
      last_le := (kept.file cat cat_lt).last_le
      free_lt := (kept.file cat cat_lt).free_lt
      clean := (kept.file cat cat_lt).clean
      rewritten := nofun }
  elsewhere := kept.elsewhere

/-- Two states of an ISAMB with the same headers and the same data. -/
structure SameData (mode : OpenMode) (b b' : Isamb) : Prop where
  left : Kept mode b
  right : Kept mode b'
  head : ∀ cat, (b'.file cat).head = (b.file cat).head
  data : ∀ pos (block : DiskBlock), block.IsData →
    (b'.view pos = some block ↔ b.view pos = some block)

theorem Kept.view_eq (kept : Kept mode b) {pos : Nat} (cat_lt : pos % catMax < mode.sizes.length) :
    b.view pos = blocksAt (b.file (pos % catMax)) (mode.block pos)
      (if mode.cache then cacheSlot (b.file (pos % catMax)) pos else 0) := by
  rw [← kept.block_eq cat_lt, view, kept.cache]
  cases cached : mode.cache with
  | true => rfl
  | false => rw [blocksAt_uncached ((kept.file _ cat_lt).uncached cached)]; rfl

theorem Kept.view_readBlock (kept : Kept mode b) (pos other : Nat) :
    (b.readBlock pos).2.view other = b.view other := by
  unfold Isamb.readBlock
  split
  · next cached =>
    have contents := (cacheRead_spec (kept.sound (pos % catMax)) b.cacheSize pos).2.2.2
    have head := (cacheRead_spec (kept.sound (pos % catMax)) b.cacheSize pos).2.2.1
    by_cases same : other % catMax = pos % catMax
    · simp [view, Isamb.setFile, cached, same, contents, cacheNorm, cacheSlot, head]
    · simp [view, Isamb.setFile, cached, Function.update_of_ne same]
  · rfl

theorem SameData.readBlock (same : SameData mode b b') {pos : Nat} (placed : Placed mode pos) :
    SameData mode (b.readBlock pos).2 (b'.readBlock pos).2 where
  left := same.left.readBlock placed
  right := same.right.readBlock placed
  head cat := by rw [same.right.head_readBlock, same.left.head_readBlock, same.head]
  data other block is_data := by
    rw [same.right.view_readBlock, same.left.view_readBlock]
    exact same.data other block is_data

variable {Item Code : Type} {m : IsamcM Item Code}

theorem SameData.openBlock (same : SameData mode b b') {pos : Nat} {p : Block Code}
    (run : openBlock m b pos = .ok (p, c)) :
    ∃ c', Isamb.openBlock m b' pos = .ok (p, c') ∧ SameData mode c c' := by
  rw [Isamb.openBlock] at run ⊢
  split at run
  · cases run
  next pos_ne =>
  rw [if_neg pos_ne]
  have left := same.left.readBlock_fst pos
  have right := same.right.readBlock_fst pos
  split at run
  · next leaf noItems bytes after read =>
    rw [read] at left
    obtain ⟨placed, -⟩ := same.left.placed left.symm trivial
    have same_after := same.readBlock placed
    have at_right := (same.data pos (.used leaf noItems bytes) trivial).mpr left.symm
    rw [read] at same_after
    generalize b'.readBlock pos = read' at right same_after
    obtain ⟨block', after'⟩ := read'
    dsimp only at right same_after
    rw [right, at_right]
    dsimp only
    split at run
    · cases run
      exact ⟨_, rfl, same_after⟩
    · cases run
  · cases run
  · cases run
  · cases run

theorem SameData.opensAlike (m : IsamcM Item Code) (mode : OpenMode) :
    OpensAlike m (SameData mode) where
  openBlock same run := same.openBlock run
  maxLevels same := by simp only [maxLevels, same.head]

theorem SameData.symm (same : SameData mode b b') : SameData mode b' b where
  left := same.right
  right := same.left
  head cat := (same.head cat).symm
  data pos block is_data := (same.data pos block is_data).symm

section

variable {cat rootPtr : Nat} {f : IsambFile}

/-- What `isamb_close` leaves behind a block number. -/
theorem closedFile_data {k slot : Nat} {block : DiskBlock} (is_data : block.IsData)
    (at_k : closedFile mode rootPtr f k slot = some block) : blocksAt f k slot = some block := by
  rw [closedFile] at at_k
  split at at_k
  · rw [writeHeader] at at_k
    split at at_k
    · rw [rawSlots] at at_k
      split at at_k
      · cases at_k
        cases is_data
      · cases at_k
    · exact at_k
  · exact at_k

def reopenedFile (mode : OpenMode) (writeflag : Bool) (rootPtr : Nat) (f : IsambFile) :
    IsambFile where
  bf := closedFile mode rootPtr f
  head := f.head
  cacheEntries := []
  headDirty := mode.useRootPtr && writeflag

theorem FileKept.reopened (kept : FileKept mode cat rootPtr f) (openable : Openable mode.sizes)
    (cat_lt : cat < mode.sizes.length) (root_lt : rootPtr < 2 ^ 63)
    (no_root : mode.useRootPtr = false → rootPtr = 0) (fits : HeaderFits mode rootPtr f)
    (writeflag : Bool) :
    FileKept { mode with writeflag } cat rootPtr (reopenedFile mode writeflag rootPtr f) where
  sound := ⟨nodup_nil, nofun⟩
  uncached _ := rfl
  entries := nofun
  data k slot block at_k is_data := kept.data k slot block (closedFile_data is_data at_k) is_data
  blockSize := kept.blockSize
  blockMax := kept.blockMax
  blockOffset := kept.blockOffset
  firstBlock := kept.firstBlock
  first_le := kept.first_le
  last_le := kept.last_le
  free_lt := kept.free_lt
  clean _ := kept.openFile openable cat_lt root_lt no_root fits
  rewritten use write := by
    change (mode.useRootPtr && writeflag) = true
    rw [show mode.useRootPtr = true from use, show writeflag = true from write]
    rfl

theorem FileKept.closedFile_iff (kept : FileKept mode cat rootPtr f)
    (openable : Openable mode.sizes)
    (cat_lt : cat < mode.sizes.length) (root_lt : rootPtr < 2 ^ 63)
      (fits : HeaderFits mode rootPtr f)
    (k slot : Nat) {block : DiskBlock} (is_data : block.IsData) :
    closedFile mode rootPtr f k slot = some block ↔ blocksAt f k slot = some block := by
  refine ⟨closedFile_data is_data, fun at_k => ?_⟩
  obtain ⟨ge, -, -⟩ := kept.data k slot block at_k is_data
  rw [kept.closedFile_of_ge openable cat_lt root_lt fits ge, at_k]

end

theorem Kept.isambClose_eq (kept : Kept mode b) {cat : Nat} (cat_lt : cat < mode.sizes.length) :
    isambClose b cat = closedFile mode b.rootPtr (b.file cat) := by
  have file := kept.file cat cat_lt
  obtain ⟨head, dirty⟩ := foldl_writeEntry (b.file cat) (b.file cat).cacheEntries
  have flushed_head : (flushBlocks (b.file cat)).head = (b.file cat).head := head
  have flushed_dirty : (flushBlocks (b.file cat)).headDirty = (b.file cat).headDirty := dirty
  simp only [isambClose, closedFile, flushed_head, flushed_dirty, flushBlocks_bf file.sound,
    kept.cache, kept.useRootPtr, kept.noCat, cat_lt, true_and]

theorem Kept.isambClose_elsewhere (kept : Kept mode b) {cat : Nat}
    (cat_ge : mode.sizes.length ≤ cat) : isambClose b cat = (b.file cat).bf := by
  obtain ⟨empty, -, -⟩ := kept.elsewhere cat cat_ge
  have outside : ¬(cat < b.noCat ∧ (flushBlocks (b.file cat)).headDirty = true) := by
    rw [kept.noCat]
    omega
  simp only [isambClose, if_neg outside]
  simp only [flushBlocks, empty, foldl_nil]

theorem mapM_ok {ε α β : Type} {f : α → Except ε β} {g : α → β} {l : List α}
    (each : ∀ a ∈ l, f a = .ok (g a)) : l.mapM f = .ok (l.map g) := by
  induction l with
  | nil => rfl
  | cons a l ih =>
    rw [mapM_cons, each a mem_cons_self,
      ih fun a mem => each a (.tail _ mem)]
    rfl

/-- The root pointer of the headers, all of which agree. -/
theorem foldl_root {α : Type} (rootPtr : Nat) {l : List (α × Option Nat)} (ne : l ≠ [])
    (agree : ∀ f ∈ l, f.2.getD 0 = rootPtr) :
    l.foldl (fun root f => f.2.getD root) 0 = rootPtr := by
  have later : ∀ l : List (α × Option Nat), (∀ f ∈ l, f.2.getD 0 = rootPtr) →
      l.foldl (fun root f => f.2.getD root) rootPtr = rootPtr := by
    intro l agree
    induction l with
    | nil => rfl
    | cons f l ih =>
      have first := agree f mem_cons_self
      rw [foldl_cons]
      cases found : f.2 with
      | none => exact ih fun f mem => agree f (.tail _ mem)
      | some root =>
        rw [found] at first
        change foldl _ root l = rootPtr
        rw [show root = rootPtr from first]
        exact ih fun f mem => agree f (.tail _ mem)
  cases l with
  | nil => exact absurd rfl ne
  | cons f l =>
    rw [foldl_cons, agree f mem_cons_self]
    exact later l fun f mem => agree f (.tail _ mem)

theorem isambOpen2_of_files (cache : Bool) {disk : Nat → BlockFile} {writeflag useRootPtr : Bool}
    {sizes : List Nat} {files : List (IsambFile × Option Nat)}
    (run : (List.range sizes.length).mapM (fun i =>
      openFile sizes.length i (sizes.getD i 0) writeflag useRootPtr (disk i)) = .ok files) :
    ∃ b, isambOpen2 disk writeflag cache sizes useRootPtr = .ok b ∧ b.noCat = sizes.length ∧
      b.cache = cache ∧ b.useRootPtr = useRootPtr ∧
      b.rootPtr = files.foldl (fun root f => f.2.getD root) 0 ∧
      (∀ i f, files[i]? = some f → b.file i = f.1) ∧
      ∀ i, files[i]? = none →
        b.file i =
          { bf := disk i, head := newHead sizes.length i (sizes.getD i 0), cacheEntries := []
            headDirty := false } := by
  rw [isambOpen2, run]
  refine ⟨_, rfl, rfl, rfl, rfl, rfl, fun i f found => ?_, fun i missing => ?_⟩
  · dsimp only
    rw [found]
  · dsimp only
    rw [missing]

def HeadersFit (mode : OpenMode) (b : Isamb) : Prop :=
  ∀ cat < mode.sizes.length, HeaderFits mode b.rootPtr (b.file cat)

instance (mode : OpenMode) (b : Isamb) : Decidable (HeadersFit mode b) :=
  inferInstanceAs (Decidable (∀ cat < mode.sizes.length, HeaderFits mode b.rootPtr (b.file cat)))

/-- Closing and opening gives a state with the same data. -/
theorem Kept.reopen (kept : Kept mode b) (openable : Openable mode.sizes) (fits : HeadersFit mode b)
    (writeflag : Bool) :
    ∃ b', isambOpen2 (isambClose b) writeflag mode.cache mode.sizes mode.useRootPtr = .ok b' ∧
      b'.rootPtr = b.rootPtr ∧ Kept { mode with writeflag } b' ∧ SameData mode.readOnly b b' := by
  have reads (cat : Nat) : ∃ root : Option Nat, root.getD 0 = b.rootPtr ∧ (cat < mode.sizes.length →
      openFile mode.sizes.length cat (mode.size cat) writeflag mode.useRootPtr (isambClose b cat) =
        .ok (reopenedFile mode writeflag b.rootPtr (b.file cat), root)) := by
    by_cases cat_lt : cat < mode.sizes.length
    · obtain ⟨root, root_eq, read⟩ := (kept.file cat cat_lt).openFile openable cat_lt kept.root_lt
        kept.no_root (fits cat cat_lt)
      refine ⟨root, root_eq, fun _ => ?_⟩
      rw [read writeflag _ fun k _ => congrFun (kept.isambClose_eq cat_lt) k,
        kept.isambClose_eq cat_lt]
      rfl
    · exact ⟨some b.rootPtr, rfl, fun lt => absurd lt cat_lt⟩
  choose root root_eq read using reads
  let opened (cat : Nat) := (reopenedFile mode writeflag b.rootPtr (b.file cat), root cat)
  have files : (List.range mode.sizes.length).mapM (fun i =>
      openFile mode.sizes.length i (mode.sizes.getD i 0) writeflag mode.useRootPtr
        (isambClose b i)) =
        .ok ((List.range mode.sizes.length).map opened) :=
    mapM_ok fun cat mem => read cat (mem_range.mp mem)
  have rooted : ((List.range mode.sizes.length).map opened).foldl (fun root f => f.2.getD root) 0 =
      b.rootPtr := by
    refine foldl_root b.rootPtr ?_ ?_
    · simpa using openable.ne
    · intro f mem
      obtain ⟨cat, -, rfl⟩ := mem_map.mp mem
      exact root_eq cat
  obtain ⟨b', open_run, noCat, cache, useRootPtr, rootPtr, found, missing⟩ :=
    isambOpen2_of_files mode.cache files
  rw [rooted] at rootPtr
  have file_eq {cat : Nat} (cat_lt : cat < mode.sizes.length) :
      b'.file cat = reopenedFile mode writeflag b.rootPtr (b.file cat) :=
    found cat (opened cat) (by rw [getElem?_map, getElem?_range cat_lt]; rfl)
  have file_elsewhere {cat : Nat} (cat_ge : mode.sizes.length ≤ cat) :
      b'.file cat =
        { bf := isambClose b cat, head := newHead mode.sizes.length cat (mode.size cat)
          cacheEntries := [], headDirty := false } :=
    missing cat (getElem?_eq_none (by simpa using cat_ge))
  have right : Kept { mode with writeflag } b' :=
    { noCat
      cache
      useRootPtr
      root_lt := rootPtr.trans_lt kept.root_lt
      no_root := fun use => rootPtr.trans (kept.no_root use)
      file := fun cat cat_lt => by
        rw [file_eq cat_lt, rootPtr]
        exact (kept.file cat cat_lt).reopened openable cat_lt kept.root_lt kept.no_root
          (fits cat cat_lt) writeflag
      elsewhere := fun cat cat_ge => by
        rw [file_elsewhere cat_ge, kept.isambClose_elsewhere cat_ge]
        exact ⟨rfl, rfl, (kept.elsewhere cat cat_ge).2.2⟩ }
  refine ⟨b', open_run, rootPtr, right, kept.readOnly, right.readOnly, fun cat => ?_,
    fun pos block is_data => ?_⟩
  · by_cases cat_lt : cat < mode.sizes.length
    · rw [file_eq cat_lt]
      rfl
    · rw [file_elsewhere (Nat.le_of_not_lt cat_lt)]
      exact (kept.elsewhere cat (Nat.le_of_not_lt cat_lt)).2.1.symm
  · by_cases cat_lt : pos % catMax < mode.sizes.length
    · have found := (kept.file _ cat_lt).closedFile_iff openable cat_lt kept.root_lt (fits _ cat_lt)
        (mode.block pos) (if mode.cache then cacheSlot (b.file (pos % catMax)) pos else 0) is_data
      rw [kept.view_eq cat_lt, right.view_eq (by exact cat_lt), file_eq cat_lt]
      exact found
    · have left_none : b.view pos ≠ some block := fun at_pos =>
        cat_lt (kept.placed at_pos is_data).1.cat_lt
      have right_none : b'.view pos ≠ some block := fun at_pos =>
        cat_lt (right.placed at_pos is_data).1.cat_lt
      exact iff_of_false right_none left_none

theorem openFile_new {noCat i size : Nat} {writeflag useRootPtr : Bool} {bf : BlockFile}
    (absent : bf 0 0 = none) (size_ge : 8 ≤ size) :
    Isamb.openFile noCat i size writeflag useRootPtr bf =
      .ok ({ bf, head := newHead noCat i size, cacheEntries := [],
             headDirty := useRootPtr && writeflag }, none) := by
  have enough : ¬((newHead noCat i size).blockSize < (newHead noCat i size).blockOffset ∨
      (newHead noCat i size).blockSize ≠ size) := by
    rintro (less | differ)
    · simp only [newHead] at less
      split at less <;> omega
    · exact differ rfl
  rw [Isamb.openFile, absent]
  exact if_neg enough

def noFiles : Nat → BlockFile := fun _ _ _ => none

def newFile (mode : OpenMode) (cat : Nat) : IsambFile where
  bf := noFiles cat
  head := newHead mode.sizes.length cat (mode.size cat)
  cacheEntries := []
  headDirty := mode.useRootPtr && mode.writeflag

theorem newFile_kept (openable : Openable mode.sizes) {cat : Nat}
    (cat_lt : cat < mode.sizes.length) :
    FileKept mode cat 0 (newFile mode cat) where
  sound := ⟨nodup_nil, nofun⟩
  uncached _ := rfl
  entries := nofun
  data _ _ _ at_k := nomatch at_k
  blockSize := rfl
  blockMax := rfl
  blockOffset := rfl
  firstBlock := rfl
  first_le := Nat.le_refl _
  last_le := by
    obtain ⟨-, -, le⟩ := openable.divisor cat_lt
    exact (Nat.succ_le_succ le).trans (by decide)
  free_lt := Nat.two_pow_pos 80
  clean _ := by
    obtain ⟨size_ge, -⟩ := openable.size_ge cat_lt
    refine ⟨none, rfl, fun writeflag bf same => ?_⟩
    have reserved_pos : 0 < mode.reserved cat := by
      rw [OpenMode.reserved]
      split
      · exact Nat.one_pos
      · exact Nat.succ_pos _
    exact openFile_new (congrFun (same 0 reserved_pos) 0) (by omega)
  rewritten use write := by
    change (mode.useRootPtr && mode.writeflag) = true
    rw [use, write]
    rfl

theorem new_spec (openable : Openable mode.sizes) :
    ∃ b, isambOpen2 noFiles mode.writeflag mode.cache mode.sizes mode.useRootPtr = .ok b ∧
      Kept mode b ∧ b.rootPtr = 0 ∧ ∀ cat < mode.sizes.length, b.file cat = newFile mode cat := by
  let opened (cat : Nat) : IsambFile × Option Nat := (newFile mode cat, none)
  have files : (List.range mode.sizes.length).mapM (fun i =>
      openFile mode.sizes.length i (mode.sizes.getD i 0) mode.writeflag mode.useRootPtr
        (noFiles i)) =
        .ok ((List.range mode.sizes.length).map opened) := by
    refine mapM_ok fun cat mem => openFile_new rfl ?_
    obtain ⟨size_ge, -⟩ := openable.size_ge (mem_range.mp mem)
    exact (by decide : 8 ≤ 32).trans size_ge
  obtain ⟨b, run, noCat, cache, useRootPtr, rootPtr, found, missing⟩ :=
    isambOpen2_of_files mode.cache files
  have no_root : b.rootPtr = 0 := by
    rw [rootPtr]
    refine foldl_root 0 (by simpa using openable.ne) fun f mem => ?_
    obtain ⟨cat, -, rfl⟩ := mem_map.mp mem
    rfl
  have file_eq {cat : Nat} (cat_lt : cat < mode.sizes.length) : b.file cat = newFile mode cat :=
    found cat (opened cat) (by rw [getElem?_map, getElem?_range cat_lt]; rfl)
  refine ⟨b, run, ?_, no_root, fun cat cat_lt => file_eq cat_lt⟩
  exact
    { noCat
      cache
      useRootPtr
      root_lt := no_root.trans_lt (by decide)
      no_root := fun _ => no_root
      file := fun cat cat_lt => by
        rw [file_eq cat_lt, no_root]
        exact newFile_kept openable cat_lt
      elsewhere := fun cat cat_ge => by
        rw [missing cat (getElem?_eq_none (by simpa using cat_ge))]
        exact ⟨rfl, rfl, fun _ _ _ at_k => nomatch at_k⟩ }

/-- A new root pointer of an ISAMB opened for writing with one. -/
theorem Kept.setRootPtr (kept : Kept mode b) (use : mode.useRootPtr = true)
    (write : mode.writeflag = true) {rootPtr : Nat} (root_lt : rootPtr < 2 ^ 63) :
    Kept mode (setRootPtr b rootPtr) where
  noCat := kept.noCat
  cache := kept.cache
  useRootPtr := kept.useRootPtr
  root_lt := root_lt
  no_root off := nomatch use.symm.trans off
  file cat cat_lt :=
    { kept.file cat cat_lt with
      clean := fun clean => by
        have dirty := (kept.file cat cat_lt).rewritten use write
        cases clean.symm.trans dirty }
  elsewhere := kept.elsewhere

/-- States that an ISAMB opened for `mode` may be in.  What it does on the way is unrestricted,
except that it is closed only when its headers fit. -/
inductive Opened (m : IsamcM Item Code) : OpenMode → Isamb → Prop
  | create {mode : OpenMode} {b : Isamb}
      (run : isambOpen2 noFiles mode.writeflag mode.cache mode.sizes mode.useRootPtr = .ok b) :
      Opened m mode b
  /-- `isamb_merge` of any items into any list. -/
  | merge {mode : OpenMode} {b b' : Isamb} {pos pos' : Nat} {items : List (Item × Nat)}
      (before : Opened m mode b) (run : merge m b pos items = .ok (pos', b')) : Opened m mode b'
  /-- `isamb_unlink` of any list. -/
  | unlink {mode : OpenMode} {b b' : Isamb} {pos : Nat} (before : Opened m mode b)
      (run : unlink m b.maxLevels b pos = .ok b') : Opened m mode b'
  | read {mode : OpenMode} {b b' : Isamb} {pos : Nat} {p : Block Code} (before : Opened m mode b)
      (run : openBlock m b pos = .ok (p, b')) : Opened m mode b'
  | setRootPtr {mode : OpenMode} {b : Isamb} {rootPtr : Nat} (before : Opened m mode b)
      (use : mode.useRootPtr = true) (write : mode.writeflag = true) (root_lt : rootPtr < 2 ^ 63) :
      Opened m mode (setRootPtr b rootPtr)
  /-- `isamb_close`, and `isamb_open2` for writing or for reading. -/
  | reopen {mode : OpenMode} {b b' : Isamb} {writeflag : Bool} (before : Opened m mode b)
      (fits : HeadersFit mode b)
      (run : isambOpen2 (isambClose b) writeflag mode.cache mode.sizes mode.useRootPtr = .ok b') :
      Opened m { mode with writeflag } b'

theorem Opened.kept (openable : Openable mode.sizes) (opened : Opened m mode b) : Kept mode b := by
  induction opened with
  | create run =>
    obtain ⟨b', run', kept, -⟩ := new_spec openable
    cases run.symm.trans run'
    exact kept
  | merge _ run ih => exact (ih openable).merge openable run
  | unlink _ run ih => exact (ih openable).unlink openable run
  | read _ run ih => exact ((ih openable).openBlock run).1
  | setRootPtr _ use write root_lt ih => exact (ih openable).setRootPtr use write root_lt
  | reopen _ fits run ih =>
    obtain ⟨b', run', -, kept, -⟩ := (ih openable).reopen openable fits _
    cases run.symm.trans run'
    exact kept

/-- What closing and opening gives back. -/
structure Restored (m : IsamcM Item Code) (mode : OpenMode) (b b' : Isamb) : Prop where
  head : ∀ cat < mode.sizes.length, (b'.file cat).head = (b.file cat).head
  rootPtr : b'.rootPtr = b.rootPtr
  data : ∀ pos (block : DiskBlock), block.IsData → b.view pos = some block →
    b'.view pos = some block
  reads : ∀ scope pos items, Reads m scope b' pos items ↔ Reads m scope b pos items

/-- The blocks that `isamb_close` writes a header to hold no data. -/
def HeadersApart (mode : OpenMode) (b : Isamb) : Prop :=
  ∀ cat < mode.sizes.length, (b.file cat).headDirty = true → ∀ k,
    (k = 0 ∨ k * (b.file cat).head.blockSize <
      headerLength mode.useRootPtr b.rootPtr (b.file cat).head) →
    ∀ slot block, blocksAt (b.file cat) k slot = some block → ¬block.IsData

/-- In every run an ISAMB whose headers fit survives closing and opening. -/
theorem opened_restored (openable : Openable mode.sizes) (opened : Opened m mode b)
    (fits : HeadersFit mode b) :
    (∃ b', isambOpen2 (isambClose b) mode.writeflag mode.cache mode.sizes mode.useRootPtr = .ok b' ∧
      Restored m mode b b') ∧ HeadersApart mode b := by
  have kept := opened.kept openable
  obtain ⟨b', run, rootPtr, -, same⟩ := kept.reopen openable fits mode.writeflag
  have alike := SameData.opensAlike m mode.readOnly
  refine ⟨⟨b', run, fun cat _ => same.head cat, rootPtr, fun pos block is_data at_pos =>
    (same.data pos block is_data).mpr at_pos, fun scope pos items =>
      ⟨alike.reads same.symm, alike.reads same⟩⟩, ?_⟩
  intro cat cat_lt dirty k covered slot block at_k is_data
  have file := kept.file cat cat_lt
  have found := (file.closedFile_iff openable cat_lt kept.root_lt
      (fits cat cat_lt) k slot is_data).mpr at_k
  rw [closedFile, if_pos dirty, writeHeader, if_pos covered, rawSlots] at found
  split at found
  · cases found
    exact is_data
  · cases found

/-- Two categories with the cache and a root pointer. -/
def smallMode : OpenMode where
  writeflag := true
  cache := true
  sizes := [32, 512]
  useRootPtr := true

/-- One list is split and deleted, another stays. -/
theorem opened_restored_split : ∃ b, Opened keyMethod smallMode b ∧
    (b.file 1).head.freeList ≠ 0 ∧
      (∃ b', isambOpen2 (isambClose b) smallMode.writeflag smallMode.cache smallMode.sizes
          smallMode.useRootPtr = .ok b' ∧ Restored keyMethod smallMode b b') ∧
        HeadersApart smallMode b := by
  have evaluated : ((isambOpen2 noFiles true true [32, 512] true).toOption.any fun b =>
      (merge keyMethod b 0 (wideOps 14 1)).toOption.any fun filled =>
        (merge keyMethod filled.2 0 (wideOps 1 1)).toOption.any fun other =>
          (merge keyMethod other.2 filled.1 (wideOps 14 0)).toOption.any fun r =>
            decide (HeadersFit smallMode r.2) && decide ((r.2.file 1).head.freeList ≠ 0)) =
              true := by
    decide +kernel
  obtain ⟨b, created, rest⟩ := ok_of_any evaluated
  obtain ⟨filled, fill, rest⟩ := ok_of_any rest
  obtain ⟨other, inserted, rest⟩ := ok_of_any rest
  obtain ⟨⟨pos, b'⟩, deleted, holds⟩ := ok_of_any rest
  obtain ⟨fits, free⟩ := (Bool.and_eq_true_iff).mp holds
  have opened : Opened keyMethod smallMode b' :=
    (((Opened.create created).merge fill).merge inserted).merge deleted
  have openable : Openable smallMode.sizes := ⟨by decide, by decide, by decide, by decide⟩
  exact ⟨b', opened, of_decide_eq_true free,
    opened_restored openable opened (of_decide_eq_true fits)⟩

end Zebra.Isamb
