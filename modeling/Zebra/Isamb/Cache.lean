import Mathlib.NumberTheory.Divisors
import Zebra.Isamb.Block

/-!
# The cache keeps the contents of the file

`cache_block` moves entries to the front, drops the last one when there are too many and writes it
when it is dirty.  Seen from above, none of this changes what a block holds: `Isamb.view` is the
contents of a block whether they are in the cache or in the file.
-/

namespace Zebra

open List Function

/-- What the cache of a file must satisfy: no block number occurs twice, and a clean entry agrees
with the file. -/
structure CacheSound (f : IsambFile) : Prop where
  nodup : (f.cacheEntries.map CacheEntry.pos).Nodup
  clean : ∀ entry ∈ f.cacheEntries, entry.dirty = false → f.bf entry.pos = entry.buf

/-- The slots of a block number, cached or in the file. -/
def blocksAt (f : IsambFile) (norm : Nat) : Nat → Option DiskBlock :=
  match f.cacheEntries.find? (·.pos = norm) with
  | some entry => entry.buf
  | none => f.bf norm

namespace Isamb

def view (b : Isamb) (pos : Nat) : Option DiskBlock :=
  let f := b.file (pos % catMax)
  if b.cache then blocksAt f (cacheNorm f pos) (cacheSlot f pos) else f.bf (pos / catMax) 0

section

variable {f : IsambFile}

variable {entry : CacheEntry}

theorem find?_entry {entries : List CacheEntry} (nodup : (entries.map CacheEntry.pos).Nodup)
    (mem : entry ∈ entries) :
    entries.find? (·.pos = entry.pos) = some entry := by
  induction entries with
  | nil => simp at mem
  | cons head entries ih =>
    rw [map_cons, nodup_cons] at nodup
    rcases mem_cons.mp mem with rfl | mem
    · simp
    · have differ : head.pos ≠ entry.pos := by
        intro same
        exact nodup.1 (same ▸ mem_map_of_mem mem)
      simpa [differ] using ih nodup.2 mem

theorem blocksAt_of_mem (sound : CacheSound f)
    (mem : entry ∈ f.cacheEntries) : blocksAt f entry.pos = entry.buf := by
  rw [blocksAt, find?_entry sound.nodup mem]

theorem blocksAt_of_absent {norm : Nat} (absent : ∀ entry ∈ f.cacheEntries, entry.pos ≠ norm) :
    blocksAt f norm = f.bf norm := by
  have missing : f.cacheEntries.find? (·.pos = norm) = none := by
    simpa using absent
  rw [blocksAt, missing]

/-- An entry for a block number not in the cache may be put in front. -/
theorem push_entry (sound : CacheSound f) (absent : ∀ other ∈ f.cacheEntries, other.pos ≠ entry.pos)
    (clean : entry.dirty = false → f.bf entry.pos = entry.buf) :
    CacheSound { f with cacheEntries := entry :: f.cacheEntries } ∧
      blocksAt { f with cacheEntries := entry :: f.cacheEntries } =
        Function.update (blocksAt f) entry.pos entry.buf := by
  refine ⟨⟨?_, ?_⟩, ?_⟩
  · rw [map_cons, nodup_cons]
    refine ⟨?_, sound.nodup⟩
    intro mem
    obtain ⟨other, other_mem, same⟩ := mem_map.mp mem
    exact absent other other_mem same
  · intro other mem
    rcases mem_cons.mp mem with rfl | mem
    · exact clean
    · exact sound.clean other mem
  · funext norm
    by_cases same : norm = entry.pos
    · subst same
      simp [blocksAt]
    · simp [blocksAt, update_of_ne same, Ne.symm same]

/-- What the cache must look like after an entry was taken out of it. -/
structure Fetched (f : IsambFile) (norm : Nat) (entry : CacheEntry) (left : IsambFile) : Prop where
  pos : entry.pos = norm
  buf : entry.buf = blocksAt f norm
  clean : entry.dirty = false → left.bf norm = entry.buf
  sound : CacheSound left
  absent : ∀ other ∈ left.cacheEntries, other.pos ≠ norm
  head : left.head = f.head
  frame : ∀ other, other ≠ norm → blocksAt left other = blocksAt f other

theorem writeEntry_bf_self (entry : CacheEntry)
    (clean : entry.dirty = false → f.bf entry.pos = entry.buf) :
    (writeEntry f entry).bf entry.pos = entry.buf := by
  cases dirty : entry.dirty with
  | false => simpa [writeEntry, dirty] using clean dirty
  | true => simp [writeEntry, dirty]

theorem writeEntry_bf_of_ne {norm : Nat} (differ : norm ≠ entry.pos) :
    (writeEntry f entry).bf norm = f.bf norm := by
  unfold writeEntry
  split
  · exact update_of_ne differ ..
  · rfl

@[simp] theorem writeEntry_head (entry : CacheEntry) : (writeEntry f entry).head = f.head := by
  unfold writeEntry
  split <;> rfl

/-- Dropping the last entry, written when dirty, changes no contents. -/
theorem evict_sound (sound : CacheSound f) (last : f.cacheEntries.getLast? = some entry) :
    CacheSound { writeEntry f entry with cacheEntries := f.cacheEntries.dropLast } ∧
      blocksAt { writeEntry f entry with cacheEntries := f.cacheEntries.dropLast } =
        blocksAt f := by
  have parts : f.cacheEntries = f.cacheEntries.dropLast ++ [entry] :=
    (dropLast_append_getLast? entry last).symm
  have entry_mem : entry ∈ f.cacheEntries := mem_of_getLast? last
  have nodup := sound.nodup
  rw [parts, map_append, map_singleton, nodup_append] at nodup
  have differ : ∀ other ∈ f.cacheEntries.dropLast, other.pos ≠ entry.pos := by
    intro other mem
    exact nodup.2.2 _ (mem_map_of_mem mem) _ (by simp)
  have kept : CacheSound { writeEntry f entry with cacheEntries := f.cacheEntries.dropLast } := by
    refine ⟨nodup.1, ?_⟩
    intro other mem other_clean
    rw [writeEntry_bf_of_ne (differ other mem)]
    exact sound.clean other ((dropLast_sublist _).subset mem) other_clean
  refine ⟨kept, ?_⟩
  funext norm
  by_cases cached : ∃ other ∈ f.cacheEntries.dropLast, other.pos = norm
  · obtain ⟨other, mem, rfl⟩ := cached
    have in_kept := blocksAt_of_mem kept mem
    rw [in_kept, blocksAt_of_mem sound ((dropLast_sublist _).subset mem)]
  · have absent : ∀ other ∈ f.cacheEntries.dropLast, other.pos ≠ norm := by
      intro other mem same
      exact cached ⟨other, mem, same⟩
    rw [blocksAt_of_absent (by exact absent)]
    by_cases same : norm = entry.pos
    · subst same
      rw [blocksAt_of_mem sound entry_mem]
      exact writeEntry_bf_self entry (sound.clean entry entry_mem)
    · have absent_all : ∀ other ∈ f.cacheEntries, other.pos ≠ norm := by
        rw [parts]
        intro other mem
        rcases mem_append.mp mem with mem | mem
        · exact absent other mem
        · rw [mem_singleton.mp mem]
          exact Ne.symm same
      rw [blocksAt_of_absent absent_all]
      exact writeEntry_bf_of_ne same

theorem take_entry (sound : CacheSound f) {norm : Nat}
    (found : f.cacheEntries.find? (·.pos = norm) = some entry) :
    Fetched f norm entry { f with cacheEntries := f.cacheEntries.eraseP (·.pos = norm) } := by
  have pos : entry.pos = norm := by simpa using find?_some found
  have mem : entry ∈ f.cacheEntries := mem_of_find?_eq_some found
  have sub : (f.cacheEntries.eraseP (·.pos = norm)).Sublist f.cacheEntries :=
    eraseP_sublist
  have absent : ∀ other ∈ f.cacheEntries.eraseP (·.pos = norm), other.pos ≠ norm := by
    obtain ⟨_, before, after, not_before, at_norm, split, erased⟩ :=
      exists_of_eraseP (p := (·.pos = norm)) mem (decide_eq_true pos)
    have nodup := sound.nodup
    rw [split, map_append, map_cons, perm_middle.nodup_iff] at nodup
    rw [erased]
    intro other other_mem same
    apply (nodup_cons.mp nodup).1
    rw [← map_append, of_decide_eq_true at_norm, ← same]
    exact mem_map_of_mem other_mem
  have kept : CacheSound { f with cacheEntries := f.cacheEntries.eraseP (·.pos = norm) } :=
    ⟨sound.nodup.sublist (sub.map _), fun other other_mem =>
      sound.clean other (sub.subset other_mem)⟩
  refine ⟨pos, ?_, ?_, kept, absent, rfl, ?_⟩
  · rw [blocksAt, found]
  · intro clean
    rw [← pos]
    exact sound.clean entry mem clean
  · intro other differ
    by_cases cached : ∃ cached ∈ f.cacheEntries, cached.pos = other
    · obtain ⟨cached, cached_mem, rfl⟩ := cached
      rw [blocksAt_of_mem sound cached_mem]
      refine blocksAt_of_mem kept ?_
      exact (mem_eraseP_of_neg (by simpa using differ)).mpr cached_mem
    · have absent_all : ∀ entry ∈ f.cacheEntries, entry.pos ≠ other := by
        intro entry mem same
        exact cached ⟨entry, mem, same⟩
      rw [blocksAt_of_absent absent_all]
      exact blocksAt_of_absent fun entry mem => absent_all entry (sub.subset mem)

theorem fetchEntry_spec (sound : CacheSound f) (cacheSize norm : Nat) :
    Fetched f norm (fetchEntry cacheSize f norm).1 (fetchEntry cacheSize f norm).2 := by
  unfold fetchEntry
  cases found : f.cacheEntries.find? (·.pos = norm) with
  | some entry => exact take_entry sound found
  | none =>
    have absent : ∀ entry ∈ f.cacheEntries, entry.pos ≠ norm := by simpa using found
    have unchanged : Fetched f norm { pos := norm, buf := f.bf norm, dirty := false } f :=
      ⟨rfl, (blocksAt_of_absent absent).symm, fun _ => rfl, sound, absent, rfl,
        fun _ _ => rfl⟩
    by_cases full : cacheSize ≤ f.cacheEntries.length
    · cases last : f.cacheEntries.getLast? with
      | none => simpa [full, last] using unchanged
      | some entry =>
        obtain ⟨kept, same⟩ := evict_sound sound last
        have absent_left : ∀ other ∈ f.cacheEntries.dropLast, other.pos ≠ norm :=
          fun other mem => absent other ((dropLast_sublist _).subset mem)
        have at_norm := congrFun same norm
        rw [blocksAt_of_absent (by exact absent_left)] at at_norm
        simp only [full, if_true]
        exact ⟨rfl, at_norm, fun _ => rfl, kept, absent_left, writeEntry_head entry,
          fun other _ => congrFun same other⟩
    · simpa [full] using unchanged

/-- Reading through the cache gives the block and changes no contents. -/
theorem cacheRead_spec (sound : CacheSound f) (cacheSize : Nat) (pos : Nat) :
    (cacheRead cacheSize f pos).1 = blocksAt f (cacheNorm f pos) (cacheSlot f pos) ∧
      CacheSound (cacheRead cacheSize f pos).2 ∧
      (cacheRead cacheSize f pos).2.head = f.head ∧
      blocksAt (cacheRead cacheSize f pos).2 = blocksAt f := by
  have fetched := fetchEntry_spec sound cacheSize (cacheNorm f pos)
  unfold cacheRead
  generalize fetchEntry cacheSize f (cacheNorm f pos) = taken at fetched
  obtain ⟨entry, left⟩ := taken
  dsimp only at fetched
  have same_slot : cacheSlot left pos = cacheSlot f pos := by
    rw [cacheSlot, fetched.head, cacheSlot]
  obtain ⟨kept, contents⟩ := push_entry fetched.sound
    (by rw [fetched.pos]; exact fetched.absent) (by rw [fetched.pos]; exact fetched.clean)
  refine ⟨?_, kept, fetched.head, ?_⟩
  · dsimp only
    rw [same_slot, fetched.buf]
  · rw [contents, fetched.pos, fetched.buf]
    funext norm
    by_cases same : norm = cacheNorm f pos
    · rw [same, update_self]
    · rw [update_of_ne same, fetched.frame norm same]

/-- Writing through the cache changes the slot of the block only. -/
theorem cacheWrite_spec (sound : CacheSound f) (cacheSize : Nat) (pos : Nat) (block : DiskBlock) :
    CacheSound (cacheWrite cacheSize f pos block) ∧
      (cacheWrite cacheSize f pos block).head = f.head ∧
      blocksAt (cacheWrite cacheSize f pos block) =
        Function.update (blocksAt f) (cacheNorm f pos)
          (Function.update (blocksAt f (cacheNorm f pos)) (cacheSlot f pos) (some block)) := by
  have fetched := fetchEntry_spec sound cacheSize (cacheNorm f pos)
  unfold cacheWrite
  generalize fetchEntry cacheSize f (cacheNorm f pos) = taken at fetched
  obtain ⟨entry, left⟩ := taken
  dsimp only at fetched
  have same_slot : cacheSlot left pos = cacheSlot f pos := by
    rw [cacheSlot, fetched.head, cacheSlot]
  let written := { entry with
    buf := Function.update entry.buf (cacheSlot left pos) (some block), dirty := true }
  have absent : ∀ other ∈ left.cacheEntries, other.pos ≠ written.pos := by
    intro other mem
    exact fetched.pos ▸ fetched.absent other mem
  obtain ⟨kept, contents⟩ := push_entry fetched.sound absent nofun
  refine ⟨kept, fetched.head, ?_⟩
  dsimp only
  rw [contents]
  dsimp only [written]
  rw [same_slot, fetched.pos, fetched.buf]
  funext norm
  by_cases same : norm = cacheNorm f pos
  · rw [same, update_self, update_self]
  · rw [update_of_ne same, update_of_ne same, fetched.frame norm same]

end

def cacheOff (f : IsambFile) (pos : Nat) : Nat := cacheSlot f pos * f.head.blockSize

theorem exists_power {size : Nat} (divides : size ∣ isambCacheEntrySize) : ∃ k ≤ 15, size = 2 ^ k :=
  (Nat.dvd_prime_pow Nat.prime_two).mp (show size ∣ 2 ^ 15 from divides)

variable {f : IsambFile}

theorem cacheSlot_eq {k : Nat} (k_le : k ≤ 15) (size : f.head.blockSize = 2 ^ k)
    (pos : Nat) : cacheSlot f pos = pos / 4 % 2 ^ (15 - k) := by
  have entry : isambCacheEntrySize / 2 ^ k = 2 ^ (15 - k) := by
    rw [isambCacheEntrySize, show 32768 = 2 ^ 15 by rfl, Nat.pow_div k_le (by decide)]
  rw [cacheSlot, size, entry, Nat.and_two_pow_sub_one_eq_mod, catMax]

theorem cacheNorm_eq {k : Nat} (k_le : k ≤ 15) (size : f.head.blockSize = 2 ^ k)
    (pos : Nat) : cacheNorm f pos = pos / (3 * 2 ^ (15 - k)) := by
  have entry : (catMax - 1) * isambCacheEntrySize / 2 ^ k = 3 * 2 ^ (15 - k) := by
    have power : isambCacheEntrySize = 2 ^ (15 - k) * 2 ^ k := by
      rw [← pow_add, Nat.sub_add_cancel k_le]
      rfl
    rw [power, ← Nat.mul_assoc, Nat.mul_div_cancel _ (Nat.two_pow_pos k)]
    rfl
  rw [cacheNorm, size, entry]

/-- Two blocks of a category never share a slot of an entry, whatever the size of blocks. -/
theorem place_inj (divides : f.head.blockSize ∣ isambCacheEntrySize) {p q : Nat}
    (same_cat : p % catMax = q % catMax) (norm : cacheNorm f p = cacheNorm f q)
    (slot : cacheSlot f p = cacheSlot f q) : p = q := by
  obtain ⟨k, k_le, size⟩ := exists_power divides
  rw [cacheSlot_eq k_le size, cacheSlot_eq k_le size] at slot
  rw [cacheNorm_eq k_le size, cacheNorm_eq k_le size] at norm
  have slots : 0 < 2 ^ (15 - k) := Nat.two_pow_pos _
  rw [catMax] at same_cat
  generalize 2 ^ (15 - k) = n at *
  -- blocks of one slot are `4 * n` apart, of which an entry has but `3 * n`
  have low_p := Nat.div_mul_le_self p (3 * n)
  have low_q := Nat.div_mul_le_self q (3 * n)
  have high_p := Nat.lt_mul_div_succ p (Nat.mul_pos (by decide : 0 < 3) slots)
  have high_q := Nat.lt_mul_div_succ q (Nat.mul_pos (by decide : 0 < 3) slots)
  have split_p := Nat.div_add_mod (p / 4) n
  have split_q := Nat.div_add_mod (q / 4) n
  rw [norm] at low_p high_p
  rw [slot] at split_p
  rw [Nat.mul_succ, Nat.mul_comm _ (q / (3 * n))] at high_p high_q
  rcases lt_trichotomy (p / 4 / n) (q / 4 / n) with less | same | more
  · have apart : n * (p / 4 / n) + n ≤ n * (q / 4 / n) := by
      rw [← Nat.mul_succ]
      exact Nat.mul_le_mul_left n less
    omega
  · rw [same] at split_p
    omega
  · have apart : n * (q / 4 / n) + n ≤ n * (p / 4 / n) := by
      rw [← Nat.mul_succ]
      exact Nat.mul_le_mul_left n more
    omega

theorem cacheOff_le (divides : f.head.blockSize ∣ isambCacheEntrySize) (pos : Nat) :
    cacheOff f pos + f.head.blockSize ≤ isambCacheEntrySize := by
  obtain ⟨k, k_le, size⟩ := exists_power divides
  have low : cacheSlot f pos + 1 ≤ 2 ^ (15 - k) := by
    rw [cacheSlot_eq k_le size]
    exact Nat.mod_lt _ (Nat.two_pow_pos _)
  calc
    cacheOff f pos + f.head.blockSize = (cacheSlot f pos + 1) * 2 ^ k := by
      rw [cacheOff, size, Nat.add_mul, Nat.one_mul]
    _ ≤ 2 ^ (15 - k) * 2 ^ k := Nat.mul_le_mul_right _ low
    _ = isambCacheEntrySize := by
      rw [← pow_add, Nat.sub_add_cancel k_le]
      rfl

theorem cacheOff_apart (divides : f.head.blockSize ∣ isambCacheEntrySize)
    {p q : Nat} (same_cat : p % catMax = q % catMax) (norm : cacheNorm f p = cacheNorm f q)
    (other : p ≠ q) :
    cacheOff f p + f.head.blockSize ≤ cacheOff f q ∨
      cacheOff f q + f.head.blockSize ≤ cacheOff f p := by
  have slot : cacheSlot f p ≠ cacheSlot f q :=
    fun slot => other (place_inj divides same_cat norm slot)
  rcases Nat.lt_or_gt_of_ne slot with less | more
  · left
    rw [cacheOff, cacheOff, ← Nat.succ_mul]
    exact Nat.mul_le_mul_right _ less
  · right
    rw [cacheOff, cacheOff, ← Nat.succ_mul]
    exact Nat.mul_le_mul_right _ more

end Isamb

end Zebra
