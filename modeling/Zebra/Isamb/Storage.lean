import Mathlib.Data.List.GetD
import Mathlib.Data.Nat.Bits
import Mathlib.Tactic.IntervalCases
import Zebra.Isamb.Cache
import Zebra.Isamb.Merge

/-!
# Blocks as a store with an exact account

An ISAMB opened with a `Layout` hands out blocks and takes them back.  `Isamb.Sound` says that the
blocks in use, together with those on the free lists, are exactly the blocks ever handed out; so
blocks of different owners never overlap and writing one leaves all others alone.
-/

namespace Zebra

open List Function

/-- How an ISAMB is opened: sizes as all that open one have them, powers of two of which the last
one is largest, and whether the cache is used. -/
structure Layout where
  /-- Block sizes of the categories. -/
  sizes : List Nat
  /-- Whether the cache is used. -/
  cache : Bool
  ne : sizes ≠ []
  /-- There are at most `CAT_MAX` of them. -/
  count_le : sizes.length ≤ catMax
  power : ∀ size ∈ sizes, ∃ k ≤ 15, size = 2 ^ k
  ge : ∀ size ∈ sizes, 8 ≤ size
  le_last : ∀ size ∈ sizes, size ≤ sizes.getLast ne
  last_ge : 512 ≤ sizes.getLast ne

namespace Layout

def noCat (layout : Layout) : Nat := layout.sizes.length

def size (layout : Layout) (cat : Nat) : Nat := layout.sizes.getD cat 0

def btree (layout : Layout) : Nat := layout.sizes.length - 1

def room (layout : Layout) (cat : Nat) : Nat :=
  layout.size cat - if cat + 1 = layout.noCat ∨ 128 < layout.size cat then 8 else 4

/-- A quarter of the room in a block of the last category. -/
def quater (layout : Layout) : Nat := (layout.size layout.btree - 8) / 4

def isambOpen (cache : Bool) : Layout where
  sizes := [32, 128, 512, 2048]
  cache := cache
  ne := by decide
  count_le := by decide
  power := by
    intro size mem
    simp only [mem_cons, not_mem_nil, or_false] at mem
    rcases mem with rfl | rfl | rfl | rfl
    exacts [⟨5, by decide⟩, ⟨7, by decide⟩, ⟨9, by decide⟩, ⟨11, by decide⟩]
  ge := by decide
  le_last := by decide
  last_ge := by decide

variable (layout : Layout)

theorem noCat_pos : 0 < layout.noCat := length_pos_of_ne_nil layout.ne

theorem noCat_le : layout.noCat ≤ catMax := layout.count_le

theorem btree_lt : layout.btree < layout.noCat := Nat.sub_one_lt_of_lt layout.noCat_pos

theorem btree_add_one : layout.btree + 1 = layout.noCat := Nat.sub_add_cancel layout.noCat_pos

theorem size_eq {cat : Nat} (cat_lt : cat < layout.noCat) :
    layout.size cat = layout.sizes.get ⟨cat, cat_lt⟩ := by
  rw [size, getD_eq_getElem _ _ cat_lt]
  rfl

theorem size_btree : layout.size layout.btree = layout.sizes.getLast layout.ne := by
  rw [size_eq _ layout.btree_lt, getLast_eq_getElem]
  rfl

theorem size_power {cat : Nat} (cat_lt : cat < layout.noCat) :
    ∃ k ≤ 15, layout.size cat = 2 ^ k :=
  layout.power _ (layout.size_eq cat_lt ▸ get_mem layout.sizes ⟨cat, cat_lt⟩)

theorem size_le {cat : Nat} (cat_lt : cat < layout.noCat) :
    layout.size cat ≤ layout.size layout.btree := by
  rw [size_btree, layout.size_eq cat_lt]
  exact layout.le_last _ (get_mem layout.sizes ⟨cat, cat_lt⟩)

theorem size_btree_eq : layout.size layout.btree = 4 * layout.quater + 8 := by
  obtain ⟨k, k_le, power⟩ := layout.size_power layout.btree_lt
  have large := layout.last_ge
  rw [← size_btree] at large
  rw [quater]
  rw [power] at large ⊢
  interval_cases k <;> omega

theorem room_btree : layout.room layout.btree = 4 * layout.quater := by
  rw [room, if_pos (.inl layout.btree_add_one), layout.size_btree_eq]
  omega

theorem quater_ge : 126 ≤ layout.quater := by
  have large := layout.last_ge
  rw [← size_btree, size_btree_eq] at large
  omega

theorem room_le {cat : Nat} (cat_lt : cat < layout.noCat) :
    layout.room cat ≤ 4 * layout.quater := by
  rw [room]
  split
  · have size_le := layout.size_le cat_lt
    rw [layout.size_btree_eq] at size_le
    omega
  · next small =>
    have quater_ge := layout.quater_ge
    omega

end Layout

namespace Isamb

/-- The free blocks of a category in the order of its list. -/
def FreeChain (view : Nat → Option DiskBlock) : Nat → List Nat → Prop
  | head, [] => head = 0
  | head, pos :: rest =>
    head = pos ∧ pos ≠ 0 ∧ ∃ next, view pos = some (.free next) ∧ FreeChain view next rest

def handedOut (head : IsambHead) (cat : Nat) : Multiset Nat :=
  ((List.range' head.firstBlock (head.lastBlock - head.firstBlock)).map (· * catMax + cat) :)

/-- The parts of the state that no operation changes. -/
structure Shaped (layout : Layout) (b : Isamb) : Prop where
  noCat : b.noCat = layout.noCat
  cache : b.cache = layout.cache
  intCount : b.enableIntCount = true
  blockSize : ∀ cat < layout.noCat, (b.file cat).head.blockSize = layout.size cat
  blockMax : ∀ cat < layout.noCat, b.blockMax cat = layout.room cat
  firstBlock : ∀ cat < layout.noCat, 0 < (b.file cat).head.firstBlock
  lastBlock : ∀ cat < layout.noCat,
    (b.file cat).head.firstBlock ≤ (b.file cat).head.lastBlock

/-- The caches of all categories are sound, when they are used. -/
def CachesSound (layout : Layout) (b : Isamb) : Prop :=
  b.cache = true → ∀ cat < layout.noCat, CacheSound (b.file cat)

/-- The blocks in use are `own`. -/
structure Sound (layout : Layout) (b : Isamb) (own : Multiset Nat) : Prop
    extends Shaped layout b where
  caches : CachesSound layout b
  own_cat : ∀ pos ∈ own, pos % catMax < layout.noCat
  small : ∀ cat < layout.noCat, ∀ pos ∈ handedOut (b.file cat).head cat, pos < 2 ^ 63
  /-- A block handed out is either in use or on the free list of its category. -/
  account : ∀ cat < layout.noCat, ∃ free : List Nat,
    FreeChain b.view (b.file cat).head.freeList free ∧
      own.filter (· % catMax = cat) + (free : Multiset Nat) =
        handedOut (b.file cat).head cat

section

variable {layout : Layout} {b : Isamb}

variable {pos : Nat}

/-- Writing a block changes what that block holds and nothing else. -/
theorem view_writeBlock_of_size
    (divides : (b.file (pos % catMax)).head.blockSize ∣ isambCacheEntrySize)
    (sound : b.cache = true → CacheSound (b.file (pos % catMax))) (block : DiskBlock) :
    (b.writeBlock pos block).view = update b.view pos (some block) := by
  funext q
  by_cases same_cat : q % catMax = pos % catMax
  · by_cases same : q = pos
    · subst same
      cases cached : b.cache with
      | true =>
        obtain ⟨-, head, contents⟩ :=
          cacheWrite_spec (sound cached) b.cacheSize q block
        simp [view, writeBlock, cached, setFile, contents, cacheNorm, cacheSlot, head]
      | false => simp [view, writeBlock, cached, setFile]
    · rw [update_of_ne same]
      cases cached : b.cache with
      | true =>
        obtain ⟨-, head, contents⟩ :=
          cacheWrite_spec (sound cached) b.cacheSize pos block
        have norm_eq : cacheNorm (cacheWrite b.cacheSize (b.file (pos % catMax)) pos block) q =
            cacheNorm (b.file (pos % catMax)) q := by rw [cacheNorm, head, cacheNorm]
        have slot_eq : cacheSlot (cacheWrite b.cacheSize (b.file (pos % catMax)) pos block) q =
            cacheSlot (b.file (pos % catMax)) q := by rw [cacheSlot, head, cacheSlot]
        simp only [view, writeBlock, cached, setFile, if_true, same_cat, update_self,
          contents, norm_eq, slot_eq]
        by_cases norm :
            cacheNorm (b.file (pos % catMax)) q = cacheNorm (b.file (pos % catMax)) pos
        · have slot : cacheSlot (b.file (pos % catMax)) q ≠
              cacheSlot (b.file (pos % catMax)) pos :=
            fun slot => same (place_inj divides same_cat norm slot)
          simp [norm, slot]
        · simp [norm]
      | false =>
        have number : q / catMax ≠ pos / catMax := by
          intro number
          simp only [catMax] at same_cat number
          omega
        simp [view, writeBlock, cached, setFile, same_cat, number]
  · have differ : q ≠ pos := fun same => same_cat (by rw [same])
    rw [update_of_ne differ]
    unfold view writeBlock setFile
    split <;> simp_all

theorem view_writeBlock (shaped : Shaped layout b) (caches : CachesSound layout b)
    (cat_lt : pos % catMax < layout.noCat) (block : DiskBlock) :
    (b.writeBlock pos block).view = update b.view pos (some block) := by
  obtain ⟨k, k_le, power⟩ := layout.size_power cat_lt
  have divides : (b.file (pos % catMax)).head.blockSize ∣ isambCacheEntrySize := by
    rw [shaped.blockSize _ cat_lt, power]
    exact pow_dvd_pow 2 k_le
  exact view_writeBlock_of_size divides (fun cached => caches cached _ cat_lt) block

theorem readBlock_fst (caches : CachesSound layout b)
    (cat_lt : pos % catMax < layout.noCat) : (b.readBlock pos).1 = b.view pos := by
  unfold readBlock view
  split
  · next cached => exact (cacheRead_spec (caches cached _ cat_lt) b.cacheSize pos).1
  · rfl

theorem head_readBlock (caches : CachesSound layout b)
    (cat_lt : pos % catMax < layout.noCat) (cat : Nat) :
    ((b.readBlock pos).2.file cat).head = (b.file cat).head := by
  unfold readBlock
  split
  · next cached =>
    by_cases same : cat = pos % catMax
    · subst same
      simpa [setFile] using (cacheRead_spec (caches cached _ cat_lt) b.cacheSize pos).2.2.1
    · simp [setFile, update_of_ne same]
  · rfl

/-- Reading moves blocks between cache and file and changes no contents. -/
theorem view_readBlock (caches : CachesSound layout b)
    (cat_lt : pos % catMax < layout.noCat) : (b.readBlock pos).2.view = b.view := by
  unfold readBlock
  split
  · next cached =>
    obtain ⟨-, -, head, contents⟩ :=
      cacheRead_spec (caches cached _ cat_lt) b.cacheSize pos
    funext q
    by_cases same_cat : q % catMax = pos % catMax
    · simp [view, setFile, cached, same_cat, contents, cacheNorm, cacheSlot, head]
    · simp [view, setFile, cached, update_of_ne same_cat]
  · rfl

theorem caches_readBlock (caches : CachesSound layout b)
    (cat_lt : pos % catMax < layout.noCat) : CachesSound layout (b.readBlock pos).2 := by
  unfold readBlock
  split
  · next cached =>
    intro _ cat other_lt
    by_cases same : cat = pos % catMax
    · subst same
      simpa [setFile] using (cacheRead_spec (caches cached _ cat_lt) b.cacheSize pos).2.1
    · simpa [setFile, update_of_ne same] using caches cached cat other_lt
  · exact caches

theorem head_writeBlock (caches : CachesSound layout b)
    (cat_lt : pos % catMax < layout.noCat) (block : DiskBlock) (cat : Nat) :
    ((b.writeBlock pos block).file cat).head = (b.file cat).head := by
  unfold writeBlock
  by_cases same : cat = pos % catMax
  · subst same
    split
    · next cached =>
      simpa [setFile] using
        (cacheWrite_spec (caches cached _ cat_lt) b.cacheSize pos block).2.1
    · simp [setFile]
  · split <;> simp [setFile, update_of_ne same]

theorem caches_writeBlock (caches : CachesSound layout b)
    (cat_lt : pos % catMax < layout.noCat) (block : DiskBlock) :
    CachesSound layout (b.writeBlock pos block) := by
  unfold writeBlock
  split
  · next cached =>
    intro _ cat other_lt
    by_cases same : cat = pos % catMax
    · subst same
      simpa [setFile] using (cacheWrite_spec (caches cached _ cat_lt) b.cacheSize pos block).1
    · simpa [setFile, update_of_ne same] using caches cached cat other_lt
  · next uncached =>
    intro cached
    exact absurd cached uncached

end

section

variable {layout : Layout} {b : Isamb} {own : Multiset Nat}

variable {pos : Nat} {cat : Nat} {head : IsambHead}

theorem mem_handedOut (cat_lt : cat < catMax) :
    pos ∈ handedOut head cat ↔
      pos % catMax = cat ∧ head.firstBlock ≤ pos / catMax ∧ pos / catMax < head.lastBlock := by
  simp only [handedOut, Multiset.mem_coe, mem_map, mem_range'_1, catMax] at *
  constructor
  · rintro ⟨number, ⟨first, last⟩, rfl⟩
    omega
  · rintro ⟨same_cat, first, last⟩
    exact ⟨pos / 4, by omega, by omega⟩

theorem handedOut_nodup (head : IsambHead) (cat : Nat) : (handedOut head cat).Nodup := by
  rw [handedOut, Multiset.coe_nodup]
  refine (nodup_range').map ?_
  intro first second same
  simp only [catMax] at same
  omega

/-- A change that keeps headers and contents keeps the account. -/
theorem Sound.congr (sound : Sound layout b own) {b' : Isamb}
    (noCat : b'.noCat = b.noCat) (cache : b'.cache = b.cache)
    (intCount : b'.enableIntCount = b.enableIntCount) (caches : CachesSound layout b')
    (heads : ∀ cat, (b'.file cat).head = (b.file cat).head) (view_eq : b'.view = b.view) :
    Sound layout b' own where
  noCat := noCat.trans sound.noCat
  cache := cache.trans sound.cache
  intCount := intCount.trans sound.intCount
  blockSize cat lt := by rw [heads]; exact sound.blockSize cat lt
  blockMax cat lt := by rw [blockMax, heads]; exact sound.blockMax cat lt
  firstBlock cat lt := by rw [heads]; exact sound.firstBlock cat lt
  lastBlock cat lt := by rw [heads]; exact sound.lastBlock cat lt
  caches := caches
  own_cat := sound.own_cat
  small cat lt := by rw [heads]; exact sound.small cat lt
  account cat lt := by rw [view_eq, heads]; exact sound.account cat lt

theorem Sound.nodup (sound : Sound layout b own) : own.Nodup := by
  rw [Multiset.nodup_iff_count_le_one]
  intro pos
  by_cases mem : pos ∈ own
  · obtain ⟨free, -, account⟩ := sound.account _ (sound.own_cat pos mem)
    have total := Multiset.nodup_iff_count_le_one.mp
      (handedOut_nodup (b.file (pos % catMax)).head (pos % catMax)) pos
    rw [← account, Multiset.count_add, Multiset.count_filter_of_pos (by rfl)] at total
    omega
  · rw [Multiset.count_eq_zero_of_notMem mem]
    exact Nat.zero_le 1

theorem Sound.mem_handedOut (sound : Sound layout b own) (mem : pos ∈ own) :
    pos ∈ handedOut (b.file (pos % catMax)).head (pos % catMax) := by
  obtain ⟨free, -, account⟩ := sound.account _ (sound.own_cat pos mem)
  rw [← account]
  exact Multiset.mem_add.mpr (.inl (Multiset.mem_filter.mpr ⟨mem, rfl⟩))

theorem Sound.lt_two_pow (sound : Sound layout b own) (mem : pos ∈ own) :
    pos < 2 ^ 63 :=
  sound.small _ (sound.own_cat pos mem) pos (sound.mem_handedOut mem)

theorem Sound.ne_zero (sound : Sound layout b own) (mem : pos ∈ own) :
    pos ≠ 0 := by
  rintro rfl
  have used := sound.mem_handedOut mem
  rw [Isamb.mem_handedOut (Nat.mod_lt _ (by decide)), Nat.zero_div] at used
  have first := sound.firstBlock _ (sound.own_cat 0 mem)
  omega

theorem not_mem_free (cat_lt : cat < layout.noCat) {free : List Nat}
    (account : own.filter (· % catMax = cat) + (free : Multiset Nat) =
      handedOut (b.file cat).head cat) (mem : pos ∈ own) : pos ∉ free := by
  intro free_mem
  have cat_small : cat < catMax := Nat.lt_of_lt_of_le cat_lt layout.noCat_le
  have in_cat : pos % catMax = cat := by
    have used : pos ∈ handedOut (b.file cat).head cat := by
      rw [← account]
      exact Multiset.mem_add.mpr (.inr free_mem)
    exact ((Isamb.mem_handedOut cat_small).mp used).1
  have nodup := handedOut_nodup (b.file cat).head cat
  rw [← account, Multiset.nodup_add] at nodup
  exact Multiset.disjoint_left.mp nodup.2.2 (Multiset.mem_filter.mpr ⟨mem, in_cat⟩) free_mem

theorem FreeChain.congr {view view' : Nat → Option DiskBlock} {free : List Nat} {head : Nat}
    (chain : FreeChain view head free) (same : ∀ pos ∈ free, view' pos = view pos) :
    FreeChain view' head free := by
  induction free generalizing head with
  | nil => exact chain
  | cons pos free ih =>
    obtain ⟨rfl, ne_zero, next, block, rest⟩ := chain
    refine ⟨rfl, ne_zero, next, ?_, ih rest fun other mem => same other (by simp [mem])⟩
    rw [same head mem_cons_self, block]

theorem Sound.readBlock (sound : Sound layout b own)
    (cat_lt : pos % catMax < layout.noCat) : Sound layout (b.readBlock pos).2 own := by
  refine sound.congr ?_ ?_ ?_ (caches_readBlock sound.caches cat_lt)
    (head_readBlock sound.caches cat_lt) (view_readBlock sound.caches cat_lt)
  all_goals unfold Isamb.readBlock; split <;> rfl

theorem Shaped.writeBlock (shaped : Shaped layout b) (caches : CachesSound layout b)
    (cat_lt : pos % catMax < layout.noCat) (block : DiskBlock) :
    Shaped layout (b.writeBlock pos block) := by
  have heads := head_writeBlock caches cat_lt block
  refine ⟨?_, ?_, ?_, ?_, ?_, ?_, ?_⟩
  · rw [← shaped.noCat]
    unfold Isamb.writeBlock
    split <;> rfl
  · rw [← shaped.cache]
    unfold Isamb.writeBlock
    split <;> rfl
  · rw [← shaped.intCount]
    unfold Isamb.writeBlock
    split <;> rfl
  · intro cat lt
    rw [heads]
    exact shaped.blockSize cat lt
  · intro cat lt
    rw [← shaped.blockMax cat lt, Isamb.blockMax, heads, Isamb.blockMax]
  · intro cat lt
    rw [heads]
    exact shaped.firstBlock cat lt
  · intro cat lt
    rw [heads]
    exact shaped.lastBlock cat lt

theorem Sound.writeBlock (sound : Sound layout b own) (mem : pos ∈ own)
    (block : DiskBlock) : Sound layout (b.writeBlock pos block) own := by
  have cat_lt := sound.own_cat pos mem
  refine ⟨sound.toShaped.writeBlock sound.caches cat_lt block,
    caches_writeBlock sound.caches cat_lt block, sound.own_cat, fun cat lt => ?_, ?_⟩
  · rw [head_writeBlock sound.caches cat_lt]
    exact sound.small cat lt
  intro cat lt
  obtain ⟨free, chain, account⟩ := sound.account cat lt
  rw [head_writeBlock sound.caches cat_lt, view_writeBlock sound.toShaped sound.caches cat_lt]
  refine ⟨free, chain.congr ?_, account⟩
  intro other other_mem
  refine update_of_ne ?_ ..
  rintro rfl
  exact not_mem_free lt account mem other_mem

@[simp] theorem setHead_file_self (cat : Nat) (head : IsambHead) :
    (b.setHead cat head).file cat = { b.file cat with head, headDirty := true } := by
  simp [setHead, setFile]

theorem setHead_file_of_ne {cat other : Nat} (differ : other ≠ cat) (head : IsambHead) :
    (b.setHead cat head).file other = b.file other := by
  simp [setHead, setFile, update_of_ne differ]

/-- Contents depend on a header only through the block size. -/
theorem view_setHead
    (size : head.blockSize = (b.file cat).head.blockSize) : (b.setHead cat head).view = b.view := by
  funext pos
  by_cases same : pos % catMax = cat
  · subst same
    simp only [view, setHead_file_self, blocksAt, cacheNorm, cacheSlot, size]
    rfl
  · simp only [view, setHead_file_of_ne same]
    rfl

theorem Shaped.setHead (shaped : Shaped layout b)
    (blockSize : head.blockSize = (b.file cat).head.blockSize)
    (blockMax : head.blockMax = (b.file cat).head.blockMax)
    (firstBlock : head.firstBlock = (b.file cat).head.firstBlock)
    (lastBlock : (b.file cat).head.lastBlock ≤ head.lastBlock) :
    Shaped layout (b.setHead cat head) := by
  refine ⟨shaped.noCat, shaped.cache, shaped.intCount, ?_, ?_, ?_, ?_⟩
  all_goals
    intro other lt
    by_cases same : other = cat
    on_goal 1 => subst same
  · simpa [blockSize] using shaped.blockSize other lt
  · simpa [setHead_file_of_ne same] using shaped.blockSize other lt
  · simpa [Isamb.blockMax, blockMax] using shaped.blockMax other lt
  · simpa [Isamb.blockMax, setHead_file_of_ne same] using shaped.blockMax other lt
  · simpa [firstBlock] using shaped.firstBlock other lt
  · simpa [setHead_file_of_ne same] using shaped.firstBlock other lt
  · simpa [firstBlock] using (shaped.lastBlock other lt).trans lastBlock
  · simpa [setHead_file_of_ne same] using shaped.lastBlock other lt

theorem CachesSound.setHead (caches : CachesSound layout b) (cat : Nat) (head : IsambHead) :
    CachesSound layout (b.setHead cat head) := by
  intro cached other lt
  have before := caches cached other lt
  by_cases same : other = cat
  · subst same
    simpa using ⟨before.nodup, before.clean⟩
  · simpa [setHead_file_of_ne same] using before

/-- The account after a category's header has changed. -/
theorem Sound.setHead (sound : Sound layout b own)
    (shaped : Shaped layout (b.setHead cat head))
    (blockSize : head.blockSize = (b.file cat).head.blockSize) {own' : Multiset Nat}
    (own_cat : ∀ pos ∈ own', pos % catMax < layout.noCat)
    (small : ∀ pos ∈ handedOut head cat, pos < 2 ^ 63)
    (others : ∀ other ≠ cat, own'.filter (· % catMax = other) = own.filter (· % catMax = other))
    (account : ∃ free : List Nat, FreeChain b.view head.freeList free ∧
      own'.filter (· % catMax = cat) + (free : Multiset Nat) = handedOut head cat) :
    Sound layout (b.setHead cat head) own' := by
  refine ⟨shaped, sound.caches.setHead cat head, own_cat, ?_, ?_⟩
  · intro other lt
    by_cases same : other = cat
    · subst same
      simpa using small
    · simpa only [setHead_file_of_ne same] using sound.small other lt
  intro other lt
  rw [view_setHead blockSize]
  by_cases same : other = cat
  · subst same
    simpa using account
  · simpa only [setHead_file_of_ne same, others other same] using sound.account other lt

theorem filter_cons_same {pos cat : Nat} (pos_cat : pos % catMax = cat) :
    (pos ::ₘ own).filter (· % catMax = cat) = pos ::ₘ own.filter (· % catMax = cat) :=
  Multiset.filter_cons_of_pos own pos_cat

theorem filter_cons_other {pos other : Nat} (differ : other ≠ pos % catMax) :
    (pos ::ₘ own).filter (· % catMax = other) = own.filter (· % catMax = other) :=
  Multiset.filter_cons_of_neg own (Ne.symm differ)

theorem allocate_fresh (empty : (b.file cat).head.freeList = 0)
    (small : (b.file cat).head.lastBlock * catMax + cat < 2 ^ 63) :
    b.allocate cat =
      .ok ((b.file cat).head.lastBlock * catMax + cat,
        b.setHead cat
          { (b.file cat).head with lastBlock := (b.file cat).head.lastBlock + 1 }) := by
  simp only [allocate]
  rw [if_pos empty, if_pos small]

theorem allocate_full (empty : (b.file cat).head.freeList = 0)
    (large : ¬(b.file cat).head.lastBlock * catMax + cat < 2 ^ 63) :
    b.allocate cat = .error .exit := by
  simp only [allocate]
  rw [if_pos empty, if_neg large]

theorem allocate_free {cat pos next : Nat} {b' : Isamb}
    (at_pos : (b.file cat).head.freeList = pos) (ne_zero : pos ≠ 0) (pos_cat : pos % catMax = cat)
    (read : b.readBlock pos = (some (.free next), b')) :
    b.allocate cat =
      .ok (pos, b'.setHead cat { (b.file cat).head with freeList := next }) := by
  subst at_pos
  simp only [allocate]
  rw [if_neg ne_zero, if_neg (not_not.mpr pos_cat), read]

theorem allocate_spec (sound : Sound layout b own) (cat_lt : cat < layout.noCat) :
    b.allocate cat = .error .exit ∨
      ∃ pos b', b.allocate cat = .ok (pos, b') ∧ pos % catMax = cat ∧ b'.view = b.view ∧
        Sound layout b' (pos ::ₘ own) := by
  have cat_small : cat < catMax := Nat.lt_of_lt_of_le cat_lt layout.noCat_le
  obtain ⟨free, chain, account⟩ := sound.account cat cat_lt
  have own_cat {pos : Nat} (pos_cat : pos % catMax = cat) :
      ∀ other ∈ pos ::ₘ own, other % catMax < layout.noCat := by
    intro other mem
    rcases Multiset.mem_cons.mp mem with rfl | mem
    · exact pos_cat ▸ cat_lt
    · exact sound.own_cat other mem
  cases free with
  | nil =>
    have empty : (b.file cat).head.freeList = 0 := chain
    by_cases small : (b.file cat).head.lastBlock * catMax + cat < 2 ^ 63
    · have pos_cat : ((b.file cat).head.lastBlock * catMax + cat) % catMax = cat := by
        simp only [catMax] at *
        omega
      refine .inr ⟨_, _, allocate_fresh empty small, pos_cat, view_setHead rfl, ?_⟩
      refine sound.setHead (sound.toShaped.setHead (by rfl) (by rfl) (by rfl) (Nat.le_succ _))
        (by rfl) (own_cat pos_cat) ?_ ?_ ⟨[], chain, ?_⟩
      · intro pos mem
        rw [mem_handedOut cat_small] at mem
        obtain ⟨same_cat, first, last⟩ := mem
        simp only [catMax] at *
        omega
      · intro other differ
        exact filter_cons_other (by rw [pos_cat]; exact differ)
      · have first_le := sound.lastBlock cat cat_lt
        rw [filter_cons_same pos_cat, Multiset.cons_add, account]
        simp only [handedOut]
        rw [Nat.sub_add_comm first_le, range'_concat, map_append, ← Multiset.coe_add,
          map_singleton, Multiset.coe_singleton, Multiset.add_comm _ {_},
          Multiset.singleton_add, one_mul, Nat.add_sub_cancel' first_le]
    · exact .inl (allocate_full empty small)
  | cons pos free =>
    obtain ⟨at_pos, ne_zero, next, block, rest⟩ := chain
    have used : pos ∈ handedOut (b.file cat).head cat := by
      rw [← account]
      exact Multiset.mem_add.mpr (.inr mem_cons_self)
    have pos_cat : pos % catMax = cat := ((mem_handedOut cat_small).mp used).1
    have pos_lt : pos % catMax < layout.noCat := pos_cat ▸ cat_lt
    have read : b.readBlock pos = (some (.free next), (b.readBlock pos).2) := by
      rw [← block, ← readBlock_fst sound.caches pos_lt]
    have head := head_readBlock sound.caches pos_lt cat
    refine .inr ⟨_, _, allocate_free at_pos ne_zero pos_cat read, pos_cat, ?_, ?_⟩
    · rw [view_setHead (by rw [head]), view_readBlock sound.caches pos_lt]
    · have read_sound := sound.readBlock pos_lt
      refine read_sound.setHead (read_sound.toShaped.setHead (by rw [head]) (by rw [head])
        (by rw [head]) (by rw [head])) (by rw [head]) (own_cat pos_cat) ?_ ?_ ⟨free, ?_, ?_⟩
      · exact sound.small cat cat_lt
      · intro other differ
        exact filter_cons_other (by rw [pos_cat]; exact differ)
      · rw [view_readBlock sound.caches pos_lt]
        exact rest
      · rw [filter_cons_same pos_cat, Multiset.cons_add, ← Multiset.add_cons,
          Multiset.cons_coe, account]
        rfl

/-- Putting a block on the free list takes it out of use. -/
theorem free_spec (sound : Sound layout b own) {rest : Multiset Nat}
    (own_eq : own = pos ::ₘ rest) {b' : Isamb}
    (b'_eq : b' = (b.setHead (pos % catMax)
      { (b.file (pos % catMax)).head with freeList := pos }).writeBlock pos
        (.free (b.file (pos % catMax)).head.freeList)) :
    Sound layout b' rest ∧
      b'.view = update b.view pos
        (some (.free (b.file (pos % catMax)).head.freeList)) := by
  have mem : pos ∈ own := own_eq ▸ Multiset.mem_cons_self pos rest
  have cat_lt := sound.own_cat pos mem
  have not_rest : pos ∉ rest := by
    have nodup := sound.nodup
    rw [own_eq] at nodup
    exact (Multiset.nodup_cons.mp nodup).1
  have shaped : Shaped layout (b.setHead (pos % catMax)
      { (b.file (pos % catMax)).head with freeList := pos }) :=
    sound.toShaped.setHead rfl rfl rfl le_rfl
  have caches := sound.caches.setHead (pos % catMax)
    { (b.file (pos % catMax)).head with freeList := pos }
  have view_eq : b'.view = update b.view pos
      (some (.free (b.file (pos % catMax)).head.freeList)) := by
    rw [b'_eq, view_writeBlock shaped caches cat_lt, view_setHead (by rfl)]
  refine ⟨?_, view_eq⟩
  refine ⟨b'_eq ▸ shaped.writeBlock caches cat_lt _, b'_eq ▸ caches_writeBlock caches cat_lt _,
    ?_, ?_, ?_⟩
  · intro other other_mem
    exact sound.own_cat other (own_eq ▸ Multiset.mem_cons_of_mem other_mem)
  · intro cat lt
    rw [b'_eq, head_writeBlock caches cat_lt]
    by_cases same : cat = pos % catMax
    · subst same
      rw [setHead_file_self]
      exact sound.small _ lt
    · simpa only [setHead_file_of_ne same] using sound.small cat lt
  · intro cat lt
    obtain ⟨free, chain, account⟩ := sound.account cat lt
    have not_free := not_mem_free lt account mem
    have chain' : FreeChain b'.view (b.file cat).head.freeList free := by
      refine chain.congr fun other other_mem => ?_
      rw [view_eq, update_of_ne]
      rintro rfl
      exact not_free other_mem
    have head : (b'.file cat).head = ((b.setHead (pos % catMax)
        { (b.file (pos % catMax)).head with freeList := pos }).file cat).head := by
      rw [b'_eq, head_writeBlock caches cat_lt]
    by_cases same : cat = pos % catMax
    · subst same
      refine ⟨pos :: free, ?_, ?_⟩
      · rw [head, setHead_file_self]
        exact ⟨rfl, sound.ne_zero mem, _, by rw [view_eq, update_self], chain'⟩
      · rw [head, setHead_file_self, ← Multiset.cons_coe, Multiset.add_cons, ← Multiset.cons_add]
        rw [own_eq, filter_cons_same rfl] at account
        exact account
    · refine ⟨free, ?_, ?_⟩
      · rw [head, setHead_file_of_ne same]
        exact chain'
      · rw [own_eq, filter_cons_other same] at account
        rw [head, setHead_file_of_ne same]
        exact account

/-- There are fewer blocks in use than the bound on the depth of a tree. -/
theorem Sound.card_lt (sound : Sound layout b own) : own.card < b.maxLevels := by
  have bound : ∀ pos ∈ own,
      pos < catMax * ((List.range catMax).map fun cat => (b.file cat).head.lastBlock).sum := by
    intro pos mem
    have cat_lt : pos % catMax < catMax := Nat.mod_lt pos (by decide)
    obtain ⟨-, -, last⟩ := (Isamb.mem_handedOut cat_lt).mp (sound.mem_handedOut mem)
    have le_sum : (b.file (pos % catMax)).head.lastBlock ≤
        ((List.range catMax).map fun cat => (b.file cat).head.lastBlock).sum :=
      single_le_sum (fun _ _ => Nat.zero_le _) _
        (mem_map.mpr ⟨_, mem_range.mpr cat_lt, rfl⟩)
    calc pos = catMax * (pos / catMax) + pos % catMax := (Nat.div_add_mod pos catMax).symm
      _ < catMax * (pos / catMax + 1) := by
          rw [Nat.mul_add_one]
          exact Nat.add_lt_add_left cat_lt _
      _ ≤ _ := Nat.mul_le_mul_left _ (last.trans_le le_sum)
  have below : own ≤ Multiset.range
      (catMax * ((List.range catMax).map fun cat => (b.file cat).head.lastBlock).sum) :=
    (Multiset.le_iff_subset sound.nodup).mpr fun pos mem =>
      Multiset.mem_range.mpr (bound pos mem)
  have card := Multiset.card_le_card below
  rw [Multiset.card_range] at card
  exact Nat.lt_add_one_of_le card

end

section

variable {layout : Layout} {b : Isamb} {own : Multiset Nat} {Item Code : Type}
  {m : IsamcM Item Code}

/-- The number `open_block` reads where `close_block` wrote `count`. -/
def readBack (count : Int) : Nat := ((decodePtr (encodePtr count ++ [0])).map Prod.fst).getD 0

theorem decodePtr_encodePtr (n : Nat) (tail : List Byte) :
    decodePtr (encodePtr n ++ tail) = some (n, tail) := by
  have decoded := Varint.decode_encode n tail
  by_cases large : 127 < n
  · have large' : (127 : Int) < n := by exact_mod_cast large
    simpa [encodePtr, large', decodePtr] using decoded
  · have small : ¬(127 : Int) < n := by exact_mod_cast large
    have cut : ((n : Int) % 256).toNat = n := by omega
    rw [Varint.encode_of_le (by omega)] at decoded
    simpa [encodePtr, small, decodePtr, cut] using decoded

@[simp] theorem readBack_natCast (n : Nat) : readBack n = n := by
  simp [readBack, decodePtr_encodePtr]

theorem decodePtr_readBack (count : Int) :
    ∃ rest, decodePtr (encodePtr count ++ [0]) = some (readBack count, rest) := by
  by_cases large : 127 < count
  · obtain ⟨n, rfl⟩ := Int.eq_ofNat_of_zero_le (by omega : 0 ≤ count)
    exact ⟨[0], by rw [decodePtr_encodePtr, readBack_natCast]⟩
  · have short : encodePtr count = [(count % 256).toNat] := by simp [encodePtr, large]
    have some_value : ∃ value rest, decodePtr (encodePtr count ++ [0]) = some (value, rest) := by
      rw [short]
      simp only [decodePtr, Varint.decode, singleton_append, Varint.decodeFrom]
      split
      · exact ⟨_, _, rfl⟩
      · exact ⟨_, _, rfl⟩
    obtain ⟨value, rest, decoded⟩ := some_value
    exact ⟨rest, by rw [readBack, decoded]; rfl⟩

theorem openBlock_spec (sound : Sound layout b own) {pos : Nat} (mem : pos ∈ own) {leaf : Bool}
    {count : Int} {bytes : List Byte}
    (block : b.view pos = some (.used leaf (encodePtr count) bytes)) :
    ∃ b', openBlock m b pos =
        .ok ({ pos, cat := pos % catMax, leaf, dirty := false, deleted := false, offset := 0,
               noItems := readBack count, bytes, decodeClientData := m.reset }, b') ∧
      Sound layout b' own ∧ b'.view = b.view := by
  have cat_lt := sound.own_cat pos mem
  obtain ⟨rest, decoded⟩ := decodePtr_readBack count
  have read : b.readBlock pos =
      (some (.used leaf (encodePtr count) bytes), (b.readBlock pos).2) := by
    rw [← block, ← readBlock_fst sound.caches cat_lt]
  refine ⟨(b.readBlock pos).2, ?_, sound.readBlock cat_lt, view_readBlock sound.caches cat_lt⟩
  unfold openBlock
  rw [if_neg (sound.ne_zero mem), read]
  simp only [decoded]

theorem newBlock_spec (sound : Sound layout b own) (leaf : Bool) {cat : Nat}
    (cat_lt : cat < layout.noCat) :
    newBlock m b leaf cat = .error .exit ∨
      ∃ pos b', newBlock m b leaf cat =
          .ok ({ pos, cat, leaf, dirty := true, deleted := false, offset := 0, noItems := 0,
                 bytes := [], decodeClientData := m.reset }, b') ∧
        pos % catMax = cat ∧ b'.view = b.view ∧ Sound layout b' (pos ::ₘ own) := by
  rcases allocate_spec sound cat_lt with full | ⟨pos, b', done, pos_cat, view_eq, sound'⟩
  · left
    rw [newBlock, full]
    rfl
  · right
    refine ⟨pos, b', ?_, pos_cat, view_eq, sound'⟩
    rw [newBlock, done]
    rfl

theorem closeBlock_deleted {pos : Nat} {rest : Multiset Nat}
    (sound : Sound layout b (pos ::ₘ rest)) {p : Block Code} (p_pos : p.pos = pos)
    (p_cat : p.cat = pos % catMax) (deleted : p.deleted = true) :
    ∃ b', closeBlock m b p = .ok b' ∧ Sound layout b' rest ∧
      ∀ other ∈ rest, b'.view other = b.view other := by
  obtain ⟨sound', view_eq⟩ := free_spec sound rfl rfl
  refine ⟨_, ?_, sound', ?_⟩
  · simp only [closeBlock, deleted, if_true, p_pos, p_cat]
  · intro other mem
    rw [view_eq, update_of_ne]
    rintro rfl
    exact (Multiset.nodup_cons.mp sound.nodup).1 mem

theorem closeBlock_dirty (sound : Sound layout b own) {p : Block Code} (mem : p.pos ∈ own)
    (kept : p.deleted = false) (dirty : p.dirty = true) (check : checkBlock m b p = true) :
    ∃ b', closeBlock m b p = .ok b' ∧ Sound layout b' own ∧
      b'.view = update b.view p.pos
        (some (.used p.leaf (encodePtr p.noItems) p.bytes)) := by
  refine ⟨_, ?_, sound.writeBlock mem _, view_writeBlock sound.toShaped sound.caches
    (sound.own_cat _ mem) _⟩
  simp [closeBlock, kept, dirty, check]

theorem closeBlock_clean {p : Block Code} (kept : p.deleted = false) (clean : p.dirty = false) :
    closeBlock m b p = .ok b := by
  simp [closeBlock, kept, clean]

end

end Isamb

end Zebra
