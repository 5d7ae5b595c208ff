import Zebra.Isamb.Reopen

/-!
# A header that does not fit

With the cache, blocks of the smallest size and a root pointer, 2^26 lists are enough: the numerals
of the header take 34 bytes of 32, `isamb_close` writes the second part to block 1 of the file, and
there the first of the lists are.
-/

namespace Zebra.Isamb

variable {Item Code : Type} {m : IsamcM Item Code}

/-- The sizes of `isamb_open`, with cache and root pointer. -/
def defaultMode : OpenMode where
  writeflag := true
  cache := true
  sizes := [32, 128, 512, 2048]
  useRootPtr := true

theorem defaultMode_openable : Openable defaultMode.sizes where
  ne := by decide
  count_le := by decide
  ge := by decide
  dvd := by decide

variable {b : Isamb} {bytes : List Byte}

/-- A new list with one item of two bytes takes a block of the smallest category. -/
theorem merge_new {item : Item} {code : Code}
    (piece : m.encode m.reset item = (code, bytes)) (length : bytes.length = 2)
    (kept : Kept defaultMode b) (free : (b.file 0).head.freeList = 0) {last : Nat}
    (last_eq : (b.file 0).head.lastBlock = last) (small : last * 4 < 2 ^ 63) :
    merge m b 0 [(item, 1)] =
      .ok (last * 4, (b.setHead 0 { (b.file 0).head with lastBlock := last + 1 }).writeBlock
        (last * 4) (.used true [1] bytes)) := by
  have noCat : b.noCat = 4 := kept.noCat
  have room : (b.file 0).head.blockMax = 28 := (kept.file 0 (by decide)).blockMax
  have large : (b.file 3).head.blockMax = 2040 := (kept.file 3 (by decide)).blockMax
  have fill : fillLeaf m b none { item, mode := 1, rest := [] } none =
      .ok { buf := { size := 2, pieces := [bytes] }, c2 := code, cut := none, noItems := 1,
            inserted := 0, dirty := true, look := false,
            stream := { item, mode := 1, rest := [] }, more := false } := by
    simp [fillLeaf, append, beyond, LeafState.put, DstBuf.push, piece, length, blockMax, noCat,
      large, bind, Except.bind]
  have category : b.categoryFor 2 = 0 := by
    simp [categoryFor, noCat, blockMax, room, List.range_succ]
  have alloc : b.allocate 0 =
      .ok (last * 4, b.setHead 0 { (b.file 0).head with lastBlock := last + 1 }) := by
    rw [allocate]
    simp only [free, if_true, catMax, Nat.add_zero, last_eq, small]
  have one : encodePtr (1 : Nat) = [1] := by decide
  have contents : [bytes].reverse.flatten = bytes := by simp
  have fits : ¬28 < 2 := by decide
  have some_left : decide (((1 : Nat) : Int) = 0) = false := by decide
  simp only [merge, mergeLoop, descend, insertLeaf, fill, leafBlock, category, newBlock,
    alloc, bind,
    Except.bind, if_true]
  simp only [blockMax, setHead_file_self, room, fits, if_false, growRoot, closeBlock, DstBuf.bytes,
    checkBlock, Bool.false_eq_true, if_true, Bool.true_or, bind, Except.bind, one, contents,
      some_left]

/-- `n` new lists of one item each. -/
def addLists (m : IsamcM Item Code) (item : Item) : Nat → Isamb → Except Fault Isamb
  | 0, b => .ok b
  | n + 1, b => do
      let b ← addLists m item n b
      let (_, b) ← merge m b 0 [(item, 1)]
      .ok b

/-- What holds after `n` lists have been added. -/
structure Added (m : IsamcM Item Code) (n : Nat) (b : Isamb) : Prop where
  opened : Opened m defaultMode b
  free : (b.file 0).head.freeList = 0
  last : (b.file 0).head.lastBlock = 1025 + n
  used : ∀ k < n, ∃ bytes, b.view ((1025 + k) * 4) = some (.used true [1] bytes)

variable {pos : Nat}

theorem view_writeBlock_default (kept : Kept defaultMode b)
    (in_cat : pos % catMax = 0) (block : DiskBlock) :
    (b.writeBlock pos block).view = Function.update b.view pos (some block) := by
  have file := kept.file 0 (by decide)
  apply view_writeBlock_of_size _ _ block
  · rw [in_cat, file.blockSize]
    decide
  · rw [in_cat]
    exact fun _ => file.sound

theorem head_writeBlock_default (kept : Kept defaultMode b)
    (in_cat : pos % catMax = 0) (block : DiskBlock) :
    ((b.writeBlock pos block).file 0).head = (b.file 0).head := by
  have cached : b.cache = true := kept.cache
  have head := (cacheWrite_spec (kept.file 0 (by decide)).sound b.cacheSize pos block).2.1
  simpa [writeBlock, cached, in_cat, setFile] using head

/-- The head of the smallest category with one more block handed out. -/
theorem kept_setHead_default (kept : Kept defaultMode b) (last free : Nat)
    (last_ge : (b.file 0).head.lastBlock ≤ last) (last_le : last ≤ 2 ^ 63)
      (free_lt : free < 2 ^ 80) :
    Kept defaultMode
      (b.setHead 0 { (b.file 0).head with lastBlock := last, freeList := free }) :=
  kept.setHead (by decide) rfl rfl rfl rfl last_ge last_le free_lt

theorem Added.step {item : Item} {code : Code} {bytes : List Byte}
    (piece : m.encode m.reset item = (code, bytes)) (length : bytes.length = 2) {n : Nat}
      {b : Isamb}
    (added : Added m n b) (small : (1025 + n) * 4 < 2 ^ 63) :
    ∃ b', merge m b 0 [(item, 1)] = .ok ((1025 + n) * 4, b') ∧ Added m (n + 1) b' := by
  have kept := added.opened.kept defaultMode_openable
  have run := merge_new piece length kept added.free added.last small
  have kept' := kept_setHead_default kept (1025 + n + 1) (b.file 0).head.freeList
    (added.last.trans_le (Nat.le_succ _)) (by omega) (kept.file 0 (by decide)).free_lt
  have in_cat : (1025 + n) * 4 % catMax = 0 := Nat.mul_mod_left _ _
  refine ⟨_, run, added.opened.merge run, ?_, ?_, fun k k_lt => ?_⟩
  · rw [head_writeBlock_default kept' in_cat, setHead_file_self]
    exact added.free
  · rw [head_writeBlock_default kept' in_cat, setHead_file_self]
    rfl
  · rw [view_writeBlock_default kept' in_cat, view_setHead (by rfl)]
    by_cases newest : k = n
    · subst newest
      exact ⟨_, Function.update_self ..⟩
    · rw [Function.update_of_ne (by omega)]
      exact added.used k (by omega)

theorem addLists_added {item : Item} {code : Code}
    (piece : m.encode m.reset item = (code, bytes)) (length : bytes.length = 2) {start : Isamb}
    (added : Added m 0 start) (n : Nat) (small : (1025 + n) * 4 < 2 ^ 63) :
    ∃ b, addLists m item n start = .ok b ∧ Added m n b := by
  induction n with
  | zero => exact ⟨start, rfl, added⟩
  | succ n ih =>
    obtain ⟨b, run, before⟩ := ih (by omega)
    obtain ⟨b', merged, after⟩ := before.step piece length (by omega)
    refine ⟨b', ?_, after⟩
    rw [addLists, run]
    simp only [bind, Except.bind, merged]

/-- `2^26` lists of one key each; then the last of them is deleted and the root pointer set to the
one before it. -/
def overlapRun (start : Isamb) : Except Fault Isamb := do
  let b ← addLists keyMethod [5] (2 ^ 26) start
  let b ← unlink keyMethod b.maxLevels b ((1024 + 2 ^ 26) * 4)
  .ok (setRootPtr b ((1023 + 2 ^ 26) * 4))

theorem unlink_leaf (m : IsamcM Item Code) {noItems : List Byte} {count : Nat}
    {rest : List Byte} (kept : Kept defaultMode b) (pos_ne : pos ≠ 0) (in_cat : pos % catMax = 0)
    (at_pos : b.view pos = some (.used true noItems bytes))
    (counted : decodePtr (noItems ++ [0]) = some (count, rest)) :
    ∃ b', Kept defaultMode b' ∧ (b'.file 0).head = (b.file 0).head ∧ b'.view = b.view ∧
      unlink m b.maxLevels b pos =
        .ok ((b'.setHead 0 { (b'.file 0).head with freeList := pos }).writeBlock pos
          (.free (b'.file 0).head.freeList)) := by
  have placed := (kept.placed at_pos trivial).1
  have fst := kept.readBlock_fst pos
  have head := kept.head_readBlock pos 0
  have view := kept.view_readBlock pos
  have kept' := kept.readBlock placed
  rw [at_pos] at fst
  cases read : b.readBlock pos with
  | mk block b' =>
    rw [read] at fst head view kept'
    dsimp only at fst head view kept'
    subst fst
    refine ⟨b', kept', head, funext view, ?_⟩
    have open_run : openBlock m b pos =
        .ok ({ pos, cat := pos % catMax, leaf := true, dirty := false, deleted := false
               offset := 0, noItems := count, bytes, decodeClientData := m.reset }, b') := by
      rw [openBlock, if_neg pos_ne, read]
      simp only [counted]
    rw [maxLevels, unlink, if_neg pos_ne, open_run]
    simp only [bind, Except.bind, if_true, closeBlock, in_cat]

theorem openFile_bf {noCat i size : Nat} {writeflag useRootPtr : Bool} {bf : BlockFile}
    {f : IsambFile} {root : Option Nat}
    (run : Isamb.openFile noCat i size writeflag useRootPtr bf = .ok (f, root)) :
    f.bf = bf ∧ f.cacheEntries = [] := by
  rw [Isamb.openFile] at run
  split at run
  · obtain ⟨⟨head, found⟩, -, run⟩ := bind_eq_ok run
    dsimp only at run
    split at run
    · cases run
    · cases run
      exact ⟨rfl, rfl⟩
  · obtain ⟨fields, -, run⟩ := bind_eq_ok run
    obtain ⟨⟨head, found⟩, -, run⟩ := bind_eq_ok run
    dsimp only at run
    split at run
    · cases run
    · cases run
      exact ⟨rfl, rfl⟩
  · cases run

theorem mapM_inv {ε α β : Type} {f : α → Except ε β} {l : List α} {results : List β}
    (run : l.mapM f = .ok results) {i : Nat} {a : α} (at_i : l[i]? = some a) :
    ∃ result, f a = .ok result ∧ results[i]? = some result := by
  induction l generalizing i results with
  | nil => cases at_i
  | cons first l ih =>
    rw [List.mapM_cons] at run
    obtain ⟨result, first_run, run⟩ := bind_eq_ok run
    obtain ⟨rest, rest_run, done⟩ := bind_eq_ok run
    cases done
    cases i with
    | zero =>
      cases at_i
      exact ⟨result, first_run, rfl⟩
    | succ i => exact ih rest_run at_i

theorem isambOpen2_bf {disk : Nat → BlockFile} {writeflag cache useRootPtr : Bool}
    {sizes : List Nat}
    (run : isambOpen2 disk writeflag cache sizes useRootPtr = .ok b) {cat : Nat}
    (cat_lt : cat < sizes.length) :
    b.cache = cache ∧ (b.file cat).bf = disk cat ∧ (b.file cat).cacheEntries = [] := by
  obtain ⟨files, files_run, -⟩ := bind_eq_ok run
  obtain ⟨b', run', -, cached, -, -, found, -⟩ := isambOpen2_of_files cache files_run
  cases run.symm.trans run'
  obtain ⟨⟨f, root⟩, file_run, at_cat⟩ := mapM_inv files_run (List.getElem?_range cat_lt)
  rw [found cat _ at_cat]
  exact ⟨cached, openFile_bf file_run⟩

def overlapHead : IsambHead where
  firstBlock := 1025
  lastBlock := 1025 + 2 ^ 26
  freeList := (1024 + 2 ^ 26) * 4
  blockSize := 32
  blockMax := 28
  blockOffset := 4

theorem overlapHead_length : headerLength true ((1023 + 2 ^ 26) * 4) overlapHead = 34 := by
  decide

/-- The lists are added, one is deleted, the root pointer is set: after closing and opening the
first list is gone. -/
theorem overlap_lost :
    ∃ start b, isambOpen2 noFiles true true [32, 128, 512, 2048] true = .ok start ∧
    overlapRun start = .ok b ∧ Opened keyMethod defaultMode b ∧
      ¬∃ b', isambOpen2 (isambClose b) true true [32, 128, 512, 2048] true = .ok b' ∧
        Restored keyMethod defaultMode b b' := by
  obtain ⟨start, created, -, -, files⟩ := new_spec defaultMode_openable
  have new_file := files 0 (by decide)
  have none_added : Added keyMethod 0 start :=
    ⟨.create created, by rw [new_file]; rfl, by rw [new_file]; rfl, fun k lt => nomatch lt⟩
  have piece : keyMethod.encode keyMethod.reset [5] = _ := rfl
  obtain ⟨b, added_run, added⟩ := addLists_added piece (by decide) none_added (2 ^ 26) (by decide)
  have kept := added.opened.kept defaultMode_openable
  have in_cat : (1024 + 2 ^ 26) * 4 % catMax = 0 := Nat.mul_mod_left _ _
  obtain ⟨first, at_first⟩ := added.used 0 (by decide)
  obtain ⟨bytes, at_last⟩ := added.used (2 ^ 26 - 1) (by decide)
  -- the last list is deleted
  have counted : decodePtr ([1] ++ [0]) = some (1, [0]) := by decide
  obtain ⟨b₁, kept₁, head₁, view₁, unlink_run⟩ :=
    unlink_leaf keyMethod kept (by decide) in_cat at_last
    counted
  have kept₂ := kept_setHead_default kept₁ _ ((1024 + 2 ^ 26) * 4) (Nat.le_refl _)
    (kept₁.file 0 (by decide)).last_le (by decide)
  generalize deleted : (b₁.setHead 0 { (b₁.file 0).head with freeList := (1024 + 2 ^ 26) * 4
    }).writeBlock
    ((1024 + 2 ^ 26) * 4) (.free (b₁.file 0).head.freeList) = b₂ at unlink_run
  have opened : Opened keyMethod defaultMode (setRootPtr b₂ ((1023 + 2 ^ 26) * 4)) :=
    (added.opened.unlink unlink_run).setRootPtr rfl rfl (by decide)
  have head₂ : (b₂.file 0).head = overlapHead := by
    have file := kept.file 0 (by decide)
    rw [← deleted, head_writeBlock_default kept₂ in_cat, setHead_file_self, head₁, overlapHead]
    simp only [file.firstBlock, file.blockSize, file.blockMax, file.blockOffset, added.last]
    rfl
  have view₂ : b₂.view (1025 * 4) = some (.used true [1] first) := by
    rw [← deleted, view_writeBlock_default kept₂ in_cat, Function.update_of_ne (by decide),
      view_setHead (by rfl), view₁]
    exact at_first
  -- the header covers block 1 of the file
  have kept₃ := opened.kept defaultMode_openable
  have lost : isambClose (setRootPtr b₂ ((1023 + 2 ^ 26) * 4)) 0 1 1 = none := by
    rw [kept₃.isambClose_eq (by decide), closedFile,
      if_pos ((kept₃.file 0 (by decide)).rewritten rfl rfl)]
    change writeHeader _ true ((1023 + 2 ^ 26) * 4) (b₂.file 0).head _ 1 1 = none
    rw [head₂, writeHeader, overlapHead_length, if_pos (Or.inr (by decide))]
    rfl
  refine ⟨start, setRootPtr b₂ ((1023 + 2 ^ 26) * 4), created, ?_, opened, ?_⟩
  · rw [overlapRun, added_run]
    simp only [bind, Except.bind, unlink_run]
  · rintro ⟨b', run, restored⟩
    obtain ⟨cached, bf, empty⟩ := isambOpen2_bf run (show 0 < 4 by decide)
    have head : (b'.file 0).head = overlapHead := (restored.head 0 (by decide)).trans head₂
    have found := restored.data (1025 * 4) (.used true [1] first) trivial view₂
    rw [view, cached, if_pos rfl] at found
    change blocksAt (b'.file 0) (cacheNorm (b'.file 0) (1025 * 4))
      (cacheSlot (b'.file 0) (1025 * 4)) = _
      at found
    rw [blocksAt_uncached empty, bf, cacheNorm, cacheSlot, head] at found
    cases found.symm.trans lost

end Zebra.Isamb
