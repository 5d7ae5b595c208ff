import Zebra.Isamb.Cursor
import Zebra.Isamb.Kept
import Zebra.Isamb.Storage

/-!
# Closing an ISAMB and opening it again

`isamb_close` and `isamb_open2` give back every header field, the root pointer and every block, as
long as no header goes on behind the first block of a file whose blocks are cache entries: there the
second block of the file is where the first data blocks are.
-/

namespace Zebra.Isamb

open List

section

theorem encodePtr_length_le_of_bits {n k : Nat} (small : n < 2 ^ (7 * (k + 1))) :
    (encodePtr n).length ≤ k + 1 := by
  unfold encodePtr
  split
  · exact Varint.encode_length_le small
  · exact Nat.le_add_left 1 k

theorem scanInt_print02 {n : Nat} (small : n < 100) {c : Byte} (sep : ¬(48 ≤ c ∧ c ≤ 57))
    (rest : List Byte) : scanInt (print02 n ++ c :: rest) = some (n, c :: rest) := by
  have tens : n / 10 ≤ 9 := by omega
  have ones : n % 10 ≤ 9 := by omega
  have value : 10 * (n / 10) + n % 10 = n := Nat.div_add_mod n 10
  have not_digit : (decide (48 ≤ c) && decide (c ≤ 57)) = false := by
    rw [← Bool.decide_and]
    exact decide_eq_false sep
  rw [print02, if_pos small, scanInt]
  have blank : (decide (48 + n / 10 = 32) || (decide (9 ≤ 48 + n / 10) &&
      decide (48 + n / 10 ≤ 13))) =
      false := by
    simp
    omega
  have first : (decide (48 ≤ 48 + n / 10) && decide (48 + n / 10 ≤ 57)) = true := by
    simp
    omega
  have second : (decide (48 ≤ 48 + n % 10) && decide (48 + n % 10 ≤ 57)) = true := by
    simp
    omega
  simp only [cons_append, nil_append, dropWhile_cons, blank, takeWhile_cons,
    first, second, not_digit, Bool.false_eq_true, if_false, if_true, foldl_cons, foldl_nil,
    reduceCtorEq]
  simp [value]

theorem scanInt_blank (src : List Byte) : scanInt (32 :: src) = scanInt src := by
  rw [scanInt, scanInt, dropWhile_cons]
  rfl

theorem headerText_length (useRootPtr : Bool) {len : Nat} (small : len < 100) :
    (headerText useRootPtr len).length = 16 := by
  have minor : minorVersion useRootPtr < 100 := by cases useRootPtr <;> decide
  simp [headerText, magic, print02, majorVersion, small, minor]

theorem decodeFields_headerFields (useRootPtr : Bool) (rootPtr : Nat) (head : IsambHead)
    (tail : List Byte) :
    decodeFields useRootPtr (headerFields useRootPtr rootPtr head ++ tail) =
      some ([head.firstBlock, head.lastBlock, head.blockSize, head.blockMax, head.freeList] ++
        if useRootPtr then [rootPtr] else []) := by
  simp only [headerFields, decodeFields, append_assoc, decodePtr_encodePtr,
    Option.bind_eq_bind, Option.bind_some]
  cases useRootPtr with
  | true => simp only [if_true, decodePtr_encodePtr, Option.bind_some]; rfl
  | false => rfl

/-- What a header that has been put together from the file's blocks says. -/
theorem readHeader_spec {size len rootPtr : Nat} {useRootPtr : Bool} {bf : BlockFile}
    {head : IsambHead} {first hbuf tail rest : List Byte} (len_small : len < 100)
    (text : first = headerText useRootPtr len ++ rest)
    (continued : continueHeader size bf len (len - size) 0 first = .ok hbuf)
    (fields : hbuf.drop 16 = headerFields useRootPtr rootPtr head ++ tail) :
    readHeader size useRootPtr bf first =
      .ok ([head.firstBlock, head.lastBlock, head.blockSize, head.blockMax, head.freeList] ++
        if useRootPtr then [rootPtr] else []) := by
  have minor : minorVersion useRootPtr < 100 := by cases useRootPtr <;> decide
  have behind : first.drop 5 = print02 majorVersion ++ 32 ::
      (print02 (minorVersion useRootPtr) ++ 32 :: (print02 len ++ 13 :: 10 :: 0 :: rest)) := by
    rw [text]
    simp [headerText, magic]
  have scanned : scanVersion (first.drop 5) = some (majorVersion, len) := by
    rw [behind, scanVersion, scanInt_print02 (by decide) (by decide)]
    simp only [Option.bind_eq_bind, Option.bind_some, scanInt_blank]
    rw [scanInt_print02 minor (by decide)]
    simp only [Option.bind_some, scanInt_blank]
    rw [scanInt_print02 len_small (by decide)]
    rfl
  have start : first.take 5 = magic := by
    rw [text]
    simp [headerText, magic]
  rw [readHeader, if_neg (not_not.mpr start), scanned]
  simp only [ne_eq, not_true_eq_false, if_false, continued, bind, Except.bind, fields,
    decodeFields_headerFields]

end

section

variable {mode : OpenMode} {cat rootPtr : Nat} {f : IsambFile}

theorem flush_bf (f : IsambFile) (entries : List CacheEntry)
    (nodup : (entries.map CacheEntry.pos).Nodup)
    (clean : ∀ entry ∈ entries, entry.dirty = false → f.bf entry.pos = entry.buf) (k : Nat) :
    (entries.foldl writeEntry f).bf k =
      match entries.find? (·.pos = k) with
      | some entry => entry.buf
      | none => f.bf k := by
  induction entries generalizing f with
  | nil => rfl
  | cons entry entries ih =>
    rw [map_cons, nodup_cons] at nodup
    have rest_clean : ∀ other ∈ entries, other.dirty = false →
        (writeEntry f entry).bf other.pos = other.buf := by
      intro other mem other_clean
      have differ : other.pos ≠ entry.pos := fun same =>
        nodup.1 (same ▸ mem_map_of_mem mem)
      rw [writeEntry_bf_of_ne differ]
      exact clean other (mem_cons_of_mem _ mem) other_clean
    rw [foldl_cons, ih (writeEntry f entry) nodup.2 rest_clean, List.find?_cons]
    by_cases same : entry.pos = k
    · have absent : entries.find? (·.pos = k) = none := by
        refine List.find?_eq_none.mpr fun other mem => ?_
        simp only [decide_eq_true_eq]
        rintro at_k
        exact nodup.1 (same.trans at_k.symm ▸ mem_map_of_mem mem)
      rw [absent]
      simp only [same, decide_true]
      subst same
      exact writeEntry_bf_self entry (clean entry mem_cons_self)
    · simp only [same, decide_false, writeEntry_bf_of_ne (Ne.symm same)]

/-- After flushing the file holds what the cache and the file held. -/
theorem flushBlocks_bf (sound : CacheSound f) : (flushBlocks f).bf = blocksAt f := by
  funext k
  exact flush_bf f f.cacheEntries sound.nodup sound.clean k

theorem foldl_writeEntry (f : IsambFile) (entries : List CacheEntry) :
    (entries.foldl writeEntry f).head = f.head ∧
      (entries.foldl writeEntry f).headDirty = f.headDirty := by
  induction entries generalizing f with
  | nil => exact ⟨rfl, rfl⟩
  | cons entry entries ih =>
    obtain ⟨head, dirty⟩ := ih (writeEntry f entry)
    have same_dirty : (writeEntry f entry).headDirty = f.headDirty := by
      unfold writeEntry
      split <;> rfl
    exact ⟨head.trans (writeEntry_head entry), dirty.trans same_dirty⟩

/-- Whether the header of a file fits its first block when its blocks are those of a cache entry. -/
def HeaderFits (mode : OpenMode) (rootPtr : Nat) (f : IsambFile) : Prop :=
  mode.cache = true → f.headDirty = true →
    headerLength mode.useRootPtr rootPtr f.head ≤ f.head.blockSize

instance (mode : OpenMode) (rootPtr : Nat) (f : IsambFile) :
    Decidable (HeaderFits mode rootPtr f) :=
  inferInstanceAs (Decidable (mode.cache = true → f.headDirty = true →
    headerLength mode.useRootPtr rootPtr f.head ≤ f.head.blockSize))

/-- What `isamb_close` leaves in the file. -/
def closedFile (mode : OpenMode) (rootPtr : Nat) (f : IsambFile) : BlockFile :=
  if f.headDirty then writeHeader mode.cache mode.useRootPtr rootPtr f.head (blocksAt f)
  else blocksAt f

theorem FileKept.headerLength_le (kept : FileKept mode cat rootPtr f)
    (openable : Openable mode.sizes)
    (cat_lt : cat < mode.sizes.length) (root_lt : rootPtr < 2 ^ 63) :
    headerLength mode.useRootPtr rootPtr f.head ≤ 64 := by
  obtain ⟨-, one_le, le⟩ := openable.divisor cat_lt
  obtain ⟨size_ge, dvd⟩ := openable.size_ge cat_lt
  have size_le : mode.size cat ≤ 32768 := Nat.le_of_dvd (by decide) dvd
  have max_le : f.head.blockMax ≤ 32768 := by
    rw [kept.blockMax, newHead]
    exact (Nat.sub_le _ _).trans size_le
  have last_le := kept.last_le
  have first : (encodePtr f.head.firstBlock).length ≤ 2 := by
    refine encodePtr_length_le_of_bits (k := 1) ?_
    rw [kept.firstBlock]
    omega
  have last : (encodePtr f.head.lastBlock).length ≤ 10 :=
    encodePtr_length_le_of_bits (k := 9) (last_le.trans_lt (by decide))
  have size : (encodePtr f.head.blockSize).length ≤ 3 := by
    refine encodePtr_length_le_of_bits (k := 2) ?_
    rw [kept.blockSize]
    omega
  have max : (encodePtr f.head.blockMax).length ≤ 3 :=
    encodePtr_length_le_of_bits (k := 2) (max_le.trans_lt (by decide))
  have free : (encodePtr f.head.freeList).length ≤ 12 :=
    encodePtr_length_le_of_bits (k := 11) (kept.free_lt.trans (by decide))
  have root : (if mode.useRootPtr then encodePtr rootPtr else []).length ≤ 9 := by
    split
    · exact encodePtr_length_le_of_bits (k := 8) root_lt
    · exact Nat.zero_le 9
  simp only [headerLength, headerFields, length_append]
  omega

theorem headerLength_ge (useRootPtr : Bool) (rootPtr : Nat) (head : IsambHead) :
    16 ≤ headerLength useRootPtr rootPtr head := Nat.le_add_right 16 _

section

variable {useRootPtr : Bool} {head : IsambHead} {n : Nat}

/-- The first bytes of the header's buffer, the text among them. -/
theorem headerBuf_take_text (small : headerLength useRootPtr rootPtr head < 100) (ge : 16 ≤ n) :
    ∃ rest, (headerBuf useRootPtr rootPtr head).take n =
      headerText useRootPtr (headerLength useRootPtr rootPtr head) ++ rest := by
  have text := headerText_length useRootPtr small
  rw [headerBuf, append_assoc, take_append, take_of_length_le (text.trans_le ge)]
  exact ⟨_, rfl⟩

/-- The first bytes of the header's buffer, the fields among them. -/
theorem headerBuf_take_fields (small : headerLength useRootPtr rootPtr head < 100)
    (ge : headerLength useRootPtr rootPtr head ≤ n) :
    ∃ tail, ((headerBuf useRootPtr rootPtr head).take n).drop 16 =
      headerFields useRootPtr rootPtr head ++ tail := by
  have text := headerText_length useRootPtr small
  have length : (headerText useRootPtr (headerLength useRootPtr rootPtr head) ++
      headerFields useRootPtr rootPtr head).length = headerLength useRootPtr rootPtr head := by
    rw [length_append, text, headerLength]
  rw [headerBuf, take_append, take_of_length_le (length.trans_le ge), append_assoc,
    drop_left' text]
  exact ⟨_, rfl⟩

end

theorem FileKept.closedFile_of_ge (kept : FileKept mode cat rootPtr f)
    (openable : Openable mode.sizes) (cat_lt : cat < mode.sizes.length) (root_lt : rootPtr < 2 ^ 63)
    (fits : HeaderFits mode rootPtr f) {k : Nat} (ge : mode.reserved cat ≤ k) :
    closedFile mode rootPtr f k = blocksAt f k := by
  rw [closedFile]
  split
  · next dirty =>
    obtain ⟨-, one_le, le⟩ := openable.divisor cat_lt
    obtain ⟨size_ge, dvd⟩ := openable.size_ge cat_lt
    have len_le := kept.headerLength_le openable cat_lt root_lt
    have size := kept.blockSize
    refine if_neg ?_
    rintro (zero | covered)
    · rw [OpenMode.reserved] at ge
      split at ge <;> omega
    · rw [OpenMode.reserved] at ge
      split at ge
      · next cached =>
        have fits := fits cached dirty
        have once : 1 * f.head.blockSize ≤ k * f.head.blockSize := Nat.mul_le_mul_right _ ge
        omega
      · have twice : 2 * f.head.blockSize ≤ k * f.head.blockSize :=
          Nat.mul_le_mul_right _ (by omega)
        omega
  · rfl

theorem openFile_of_header {noCat i size : Nat} {useRootPtr writeflag : Bool} {bf : BlockFile}
    {head : IsambHead} {first : List Byte} (first_eq : bf 0 0 = some (.raw first))
    (read : readHeader size useRootPtr bf first =
      .ok ([head.firstBlock, head.lastBlock, head.blockSize, head.blockMax, head.freeList] ++
        if useRootPtr then [rootPtr] else []))
    (offset : head.blockOffset = (newHead noCat i size).blockOffset)
    (size_eq : head.blockSize = size) (offset_le : head.blockOffset ≤ size) :
    Isamb.openFile noCat i size writeflag useRootPtr bf =
      .ok ({ bf, head, cacheEntries := [], headDirty := useRootPtr && writeflag },
        if useRootPtr then some rootPtr else none) := by
  obtain ⟨firstBlock, lastBlock, freeList, blockSize, blockMax, blockOffset⟩ := head
  simp only at offset size_eq offset_le
  subst offset size_eq
  rw [Isamb.openFile, first_eq]
  simp only [read, bind, Except.bind]
  cases useRootPtr <;> exact if_neg (by rintro (less | differ) <;> simp_all; omega)

theorem FileKept.openFile (kept : FileKept mode cat rootPtr f) (openable : Openable mode.sizes)
    (cat_lt : cat < mode.sizes.length) (root_lt : rootPtr < 2 ^ 63)
    (no_root : mode.useRootPtr = false → rootPtr = 0) (fits : HeaderFits mode rootPtr f) :
    ∃ root : Option Nat, root.getD 0 = rootPtr ∧ ∀ (writeflag : Bool) (bf : BlockFile),
      (∀ k < mode.reserved cat, bf k = closedFile mode rootPtr f k) →
        Isamb.openFile mode.sizes.length cat (mode.size cat) writeflag mode.useRootPtr bf =
          .ok ({ bf, head := f.head, cacheEntries := [],
                 headDirty := mode.useRootPtr && writeflag }, root) := by
  cases dirty : f.headDirty with
  | false =>
    obtain ⟨root, root_eq, reads⟩ := kept.clean dirty
    refine ⟨root, root_eq, fun writeflag bf same => reads writeflag bf fun k lt => ?_⟩
    rw [same k lt, closedFile, dirty]
    cases cached : mode.cache with
    | false =>
      change blocksAt f k = _
      rw [blocksAt_uncached (kept.uncached cached)]
    | true =>
      rw [FileKept.reserved_cached cached] at lt
      obtain rfl := Nat.lt_one_iff.mp lt
      exact blocksAt_of_absent kept.entries
  | true =>
    have len_le := kept.headerLength_le openable cat_lt root_lt
    have len_ge := headerLength_ge mode.useRootPtr rootPtr f.head
    obtain ⟨size_ge, dvd⟩ := openable.size_ge cat_lt
    have size_le : mode.size cat ≤ 32768 := Nat.le_of_dvd (by decide) dvd
    have size := kept.blockSize
    have offset_le : f.head.blockOffset ≤ 8 := by
      rw [kept.blockOffset]
      change (if _ then 8 else 4) ≤ 8
      split <;> decide
    let buf := headerBuf mode.useRootPtr rootPtr f.head
    let len := headerLength mode.useRootPtr rootPtr f.head
    refine ⟨if mode.useRootPtr then some rootPtr else none, ?_, fun writeflag bf same => ?_⟩
    · cases use : mode.useRootPtr with
      | true => rfl
      | false => exact (no_root use).symm
    have reserved_pos : 0 < mode.reserved cat := by
      rw [OpenMode.reserved]
      split
      · exact Nat.one_pos
      · exact Nat.succ_pos _
    have block_eq {k : Nat} (lt : k < mode.reserved cat) (covered : k = 0 ∨
        k * mode.size cat < len) :
        bf k 0 = some (.raw ((buf.drop (k * mode.size cat)).take
          (fileBlockSize mode.cache (mode.size cat)))) := by
      rw [same k lt, closedFile, if_pos dirty, writeHeader, size, if_pos covered]
      rfl
    have first_eq := block_eq reserved_pos (Or.inl rfl)
    rw [Nat.zero_mul, drop_zero] at first_eq
    obtain ⟨hbuf, continued, tail, fields⟩ : ∃ hbuf,
        continueHeader (mode.size cat) bf len (len - mode.size cat) 0
          (buf.take (fileBlockSize mode.cache (mode.size cat))) = .ok hbuf ∧
        ∃ tail, hbuf.drop 16 = headerFields mode.useRootPtr rootPtr f.head ++ tail := by
      obtain ⟨fuel, fuel_eq⟩ : ∃ fuel, len = fuel + 1 :=
        Nat.exists_eq_add_one.mpr (by omega)
      by_cases short : len ≤ mode.size cat
      · refine ⟨buf.take (fileBlockSize mode.cache (mode.size cat)), ?_,
          headerBuf_take_fields (by omega) ?_⟩
        · rw [fuel_eq, continueHeader, if_pos (by omega)]
        · rw [fileBlockSize]
          split
          · exact len_le.trans (by decide)
          · exact short
      · have uncached : mode.cache = false := by
          refine Bool.eq_false_iff.mpr fun cached => short ?_
          have fits := fits cached dirty
          rwa [size] at fits
        have second_eq : bf 1 0 = some
            (.raw ((buf.drop (mode.size cat)).take (mode.size cat))) := by
          have covered := block_eq (k := 1) (by
            rw [OpenMode.reserved, uncached]
            exact Nat.succ_lt_succ (openable.divisor cat_lt).2.1) (Or.inr (by omega))
          rwa [Nat.one_mul, fileBlockSize, uncached] at covered
        refine ⟨buf.take (mode.size cat + mode.size cat), ?_,
          headerBuf_take_fields (by omega) (by omega)⟩
        have unit : fileBlockSize mode.cache (mode.size cat) = mode.size cat := by
          rw [fileBlockSize, uncached]
          rfl
        rw [fuel_eq, continueHeader, if_neg (by omega), second_eq, unit]
        simp only [zero_add, Nat.one_mul, take_take, Nat.min_self]
        rw [← take_add]
        cases fuel with
        | zero => rfl
        | succ fuel => rw [continueHeader, if_pos (by omega)]
    have unit_ge : 16 ≤ fileBlockSize mode.cache (mode.size cat) := by
      rw [fileBlockSize]
      split
      · decide
      · omega
    have len_small : len < 100 := by omega
    obtain ⟨rest, text⟩ := headerBuf_take_text len_small unit_ge
    have read := readHeader_spec len_small text continued fields
    exact openFile_of_header first_eq read kept.blockOffset size (by omega)

end

end Zebra.Isamb
