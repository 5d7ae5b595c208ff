import Mathlib.Data.List.GetD
import Mathlib.Data.List.TakeWhile
import Zebra.Bfile.CFile
import Zebra.Lib.Chain

/-!
# Buckets in memory and on disk

A ghost table says which slots each bucket has in use, which bucket comes next and on which chain it
is.  The buckets in memory and on disk together always give this table, whichever of them have been
flushed.
-/

namespace Zebra.Bfile

open List PhBucket

section

variable {β : Type} {file : ShadowFile β}

theorem word_put (start : Nat) (numbers : List Nat) (i : Nat) :
    (file.put start numbers).word i =
      if start ≤ i ∧ i < start + numbers.length then numbers.getD (i - start) 0
      else file.word i := by
  unfold ShadowFile.put ShadowFile.word
  dsimp only
  by_cases inside : start ≤ i ∧ i < start + numbers.length
  · rw [if_pos inside, if_pos (by omega)]
  · rw [if_neg inside]
    split
    · rfl
    · rw [if_neg (by omega)]

theorem size_put (start : Nat) (numbers : List Nat) :
    (file.put start numbers).size = max file.size (start + numbers.length) :=
  rfl

theorem word_put_of_lt {start i : Nat} (numbers : List Nat) (before : i < start) :
    (file.put start numbers).word i = file.word i := by
  rw [word_put, if_neg (by omega)]

theorem word_put_one (start value i : Nat) :
    (file.put start [value]).word i = if i = start then value else file.word i := by
  rw [word_put, length_singleton]
  by_cases same : i = start
  · rw [if_pos (by omega), if_pos same, same, Nat.sub_self]
    rfl
  · rw [if_neg (by omega), if_neg same]

/-- A bucket that can be read stays as it is when other numbers are written. -/
theorem readBucket_put {start number : Nat} {numbers : List Nat} {ph : PhBucket}
    (read : readBucket file number = some ph)
    (apart : (number + 1) * hashWords ≤ start ∨ start + numbers.length ≤ number * hashWords) :
    readBucket (file.put start numbers) number = some ph := by
  have same : ∀ i, number * hashWords ≤ i → i < (number + 1) * hashWords →
      (file.put start numbers).word i = file.word i := by
    intro i low high
    rw [word_put, if_neg (by omega)]
  unfold readBucket at read ⊢
  by_cases there : (number + 1) * hashWords ≤ file.size
  · have still : (number + 1) * hashWords ≤ (file.put start numbers).size := by
      have := Nat.le_max_left file.size (start + numbers.length)
      exact Nat.le_trans there this
    rw [if_pos there] at read
    rw [if_pos still, ← read]
    have slots : (List.range hashBucket).map (fun i =>
          ((file.put start numbers).word (number * hashWords + i),
            (file.put start numbers).word (number * hashWords + hashBucket + i))) =
        (List.range hashBucket).map (fun i =>
          (file.word (number * hashWords + i),
            file.word (number * hashWords + hashBucket + i))) := by
      apply map_congr_left
      intro i mem
      have low := mem_range.mp mem
      simp only [hashBucket, hashWords] at low same ⊢
      rw [same _ (by omega) (by omega), same _ (by omega) (by omega)]
    rw [slots, same _ (by simp only [hashBucket, hashWords]; omega)
      (by simp only [hashBucket, hashWords]; omega),
      same _ (by simp only [hashBucket, hashWords]; omega)
      (by simp only [hashBucket, hashWords]; omega)]
  · rw [if_neg there] at read
    cases read

theorem PhBucket.length_words {ph : PhBucket} (width : ph.slots.length = hashBucket) :
    ph.words.length = hashWords := by
  simp only [words, length_append, length_map, width, length_cons,
    length_nil, hashBucket, hashWords]

theorem readBucket_put_self {ph : PhBucket} (width : ph.slots.length = hashBucket) (number : Nat) :
    readBucket (file.put (number * hashWords) ph.words) number = some ph := by
  have length := length_words width
  have there : (number + 1) * hashWords ≤ (file.put (number * hashWords) ph.words).size := by
    have most := Nat.le_max_right file.size (number * hashWords + ph.words.length)
    calc (number + 1) * hashWords = number * hashWords + ph.words.length := by
          rw [length]
          exact Nat.succ_mul _ _
      _ ≤ _ := most
  have word : ∀ i, i < hashWords →
      (file.put (number * hashWords) ph.words).word (number * hashWords + i) =
        ph.words.getD i 0 := by
    intro i low
    rw [word_put, if_pos (by omega), Nat.add_sub_cancel_left]
  have first : ∀ i (low : i < hashBucket), ph.words.getD i 0 =
      (ph.slots.get ⟨i, Nat.lt_of_lt_of_eq low width.symm⟩).1 := by
    intro i low
    have inside : i < (ph.slots.map Prod.fst).length := by rw [length_map, width]; exact low
    rw [words, append_assoc, getD_append _ _ _ _ inside,
      getD_eq_getElem _ _ inside, getElem_map, get_eq_getElem]
  have second : ∀ i (low : i < hashBucket),
      ph.words.getD (hashBucket + i) 0 =
        (ph.slots.get ⟨i, Nat.lt_of_lt_of_eq low width.symm⟩).2 := by
    intro i low
    have inside : i < (ph.slots.map Prod.snd).length := by rw [length_map, width]; exact low
    have front : (ph.slots.map Prod.fst).length = hashBucket := by rw [length_map, width]
    have past : (ph.slots.map Prod.fst).length ≤ hashBucket + i := by
      rw [front]
      exact Nat.le_add_right _ _
    rw [words, append_assoc, getD_append_right _ _ _ _ past, front,
      Nat.add_sub_cancel_left, getD_append _ _ _ _ inside, getD_eq_getElem _ _ inside,
      getElem_map, get_eq_getElem]
  have tail : ∀ i, ph.words.getD (2 * hashBucket + i) 0 =
      [ph.thisBucket, ph.nextBucket].getD i 0 := by
    intro i
    have both : (ph.slots.map Prod.fst ++ ph.slots.map Prod.snd).length = 2 * hashBucket := by
      rw [length_append, length_map, length_map, width]
      exact (Nat.two_mul _).symm
    rw [words, getD_append_right _ _ _ _ (by omega), both, Nat.add_sub_cancel_left]
  have slots : (List.range hashBucket).map (fun i =>
      ((file.put (number * hashWords) ph.words).word (number * hashWords + i),
        (file.put (number * hashWords) ph.words).word (number * hashWords + hashBucket + i))) =
      ph.slots := by
    apply ext_getElem
    · rw [length_map, length_range, width]
    · intro i low high
      rw [width] at high
      rw [getElem_map, getElem_range, Nat.add_assoc,
        word i (by simp only [hashBucket, hashWords] at high ⊢; omega),
        word (hashBucket + i) (by simp only [hashBucket, hashWords] at high ⊢; omega), first i high,
        second i high, get_eq_getElem]
  have last := tail 0
  have next := tail 1
  rw [readBucket, if_pos there, slots, Nat.add_assoc, word (2 * hashBucket) (by decide),
    word (2 * hashBucket + 1) (by decide), next]
  rw [Nat.add_zero] at last
  rw [last]
  rfl

end

/-- A bucket with these slots in use, the others clear. -/
def bucketOf (used : List (Nat × Nat)) (thisBucket nextBucket : Nat) : PhBucket :=
  { slots := used ++ replicate (hashBucket - used.length) (0, 0), thisBucket, nextBucket }

section

variable {used : List (Nat × Nat)} {number next : Nat}

theorem length_bucketOf (width : used.length ≤ hashBucket) :
    (bucketOf used number next).slots.length = hashBucket := by
  simp only [bucketOf, length_append, length_replicate]
  omega

theorem used_bucketOf (mapped : ∀ slot ∈ used, slot.2 ≠ 0) :
    (bucketOf used number next).used = used := by
  have all : used.takeWhile (fun slot => decide (slot.2 ≠ 0)) = used := by
    apply takeWhile_eq_self_iff.mpr
    intro slot mem
    exact decide_eq_true (mapped slot mem)
  unfold PhBucket.used bucketOf
  dsimp only
  rw [takeWhile_append, all, if_pos rfl]
  cases hashBucket - used.length with
  | zero => exact append_nil _
  | succ n => exact append_nil _

theorem find_bucketOf (mapped : ∀ slot ∈ used, slot.2 ≠ 0) (no : Nat) :
    (bucketOf used number next).find no =
      (used.find? fun slot => slot.1 = no).map Prod.snd := by
  rw [find, used_bucketOf mapped]

theorem findIdx_bucketOf (mapped : ∀ slot ∈ used, slot.2 ≠ 0) :
    (bucketOf used number next).slots.findIdx? (fun slot => slot.2 = 0) =
      if used.length < hashBucket then some used.length else none := by
  have none : used.findIdx? (fun slot => decide (slot.2 = 0)) = none := by
    apply findIdx?_eq_none_iff.mpr
    intro slot mem
    exact decide_eq_false (mapped slot mem)
  unfold bucketOf
  dsimp only
  rw [findIdx?_append, none]
  by_cases free : used.length < hashBucket
  · obtain ⟨n, some⟩ : ∃ n, hashBucket - used.length = n + 1 :=
      ⟨hashBucket - used.length - 1, by omega⟩
    rw [if_pos free, some]
    simp [replicate_succ, findIdx?_cons]
  · rw [if_neg free, show hashBucket - used.length = 0 by omega]
    rfl

theorem fill_bucketOf (mapped : ∀ slot ∈ used, slot.2 ≠ 0) (free : used.length < hashBucket)
    (no vno : Nat) :
    (bucketOf used number next).fill no vno =
      some (bucketOf (used ++ [(no, vno)]) number next) := by
  rw [fill, findIdx_bucketOf mapped, if_pos free]
  obtain ⟨n, some⟩ : ∃ n, hashBucket - used.length = n + 1 :=
    ⟨hashBucket - used.length - 1, by omega⟩
  have rest : hashBucket - (used ++ [(no, vno)]).length = n := by
    rw [length_append, length_singleton]
    omega
  simp only [Option.map_some, bucketOf, some, rest, replicate_succ, append_assoc,
    cons_append, nil_append, set_append_right, Nat.le_refl, Nat.sub_self,
    set_cons_zero]

theorem fill_bucketOf_full (mapped : ∀ slot ∈ used, slot.2 ≠ 0) (full : used.length = hashBucket)
    (no vno : Nat) : (bucketOf used number next).fill no vno = none := by
  rw [fill, findIdx_bucketOf mapped, if_neg (by omega)]
  rfl

/-- The last slot of a bucket is free unless all are in use. -/
theorem last_bucketOf (mapped : ∀ slot ∈ used, slot.2 ≠ 0) (width : used.length ≤ hashBucket) :
    ((bucketOf used number next).slots.getD (hashBucket - 1) (0, 0)).2 = 0 ↔
      used.length < hashBucket := by
  unfold bucketOf
  dsimp only
  constructor
  · intro last
    by_contra full
    have length : used.length = hashBucket := by omega
    have inside : hashBucket - 1 < used.length := by
      rw [length]
      decide
    rw [getD_append _ _ _ _ inside, getD_eq_getElem _ _ inside] at last
    exact mapped _ (getElem_mem inside) last
  · intro free
    have inside : hashBucket - 1 - used.length < hashBucket - used.length := by omega
    rw [getD_append_right _ _ _ _ (by omega)]
    simp only [getD_eq_getElem?_getD, getElem?_replicate, if_pos inside,
      Option.getD_some]

end

/-- What the buckets hold, which comes after which and on which chain it is. -/
structure Table where
  used : Nat → List (Nat × Nat)
  next : Nat → Nat
  owner : Nat → Nat

def Table.bucket (table : Table) (number : Nat) : PhBucket :=
  bucketOf (table.used number) number (table.next number)

/-- The buckets from `low` up to `high` in memory and on disk are those of a table. -/
structure Coherent (table : Table) (low high : Nat) (cf : CFile) : Prop where
  memory : ∀ p ∈ cf.buckets, low ≤ p.ph.thisBucket ∧ p.ph.thisBucket < high ∧
    p.ph = table.bucket p.ph.thisBucket ∧ p.hno = table.owner p.ph.thisBucket
  clean : ∀ p ∈ cf.buckets, p.dirty = false →
    readBucket cf.file p.ph.thisBucket = some p.ph
  disk : ∀ number, low ≤ number → number < high →
    (∀ p ∈ cf.buckets, p.ph.thisBucket ≠ number) →
      readBucket cf.file number = some (table.bucket number)
  distinct : (cf.buckets.map fun p => p.ph.thisBucket).Nodup
  count : cf.buckets.length ≤ maxBucketInMemory
  width : ∀ number, low ≤ number → number < high → (table.used number).length ≤ hashBucket

/-- What flushing and reading buckets does not change. -/
structure SameIndex (low high : Nat) (before after : CFile) : Prop where
  head : after.head = before.head
  array : after.array = before.array
  blocks : after.file.blockMf = before.file.blockMf
  diskHead : after.file.head = before.file.head
  area : ∀ i, i < low * hashWords → after.file.word i = before.file.word i
  size : after.file.size ≤ max before.file.size (high * hashWords)
  clean : after.dirty = false → before.dirty = false ∧
    ((∀ p ∈ after.buckets, p.dirty = false) → ∀ p ∈ before.buckets, p.dirty = false)

section

variable {table : Table} {low high : Nat} {cf : CFile}

theorem SameIndex.refl (low high : Nat) (cf : CFile) : SameIndex low high cf cf where
  head := rfl
  array := rfl
  blocks := rfl
  diskHead := rfl
  area _ _ := rfl
  size := Nat.le_max_left _ _
  clean still := ⟨still, id⟩

theorem SameIndex.trans {first second third : CFile} (one : SameIndex low high first second)
    (two : SameIndex low high second third) : SameIndex low high first third where
  head := two.head.trans one.head
  array := two.array.trans one.array
  blocks := two.blocks.trans one.blocks
  diskHead := two.diskHead.trans one.diskHead
  area i inside := (two.area i inside).trans (one.area i inside)
  size := by
    have := one.size
    have := two.size
    omega
  clean still := by
    obtain ⟨middle, back⟩ := two.clean still
    obtain ⟨start, front⟩ := one.clean middle
    exact ⟨start, fun all => front (back all)⟩

theorem SameIndex.counted (low high : Nat) (cf : CFile) (hits miss : Nat) :
    SameIndex low high cf { cf with noHits := hits, noMiss := miss } where
  head := rfl
  array := rfl
  blocks := rfl
  diskHead := rfl
  area _ _ := rfl
  size := Nat.le_max_left _ _
  clean still := ⟨still, id⟩

def CFile.release (cf : CFile) (p : HashBucket) : CFile :=
  { cf with
    file := if p.dirty then cf.file.put (p.ph.thisBucket * hashWords) p.ph.words else cf.file
    dirty := cf.dirty || p.dirty
    buckets := cf.buckets.dropLast }

variable {p : HashBucket}

theorem flushBucket_succ (n : Nat) (last : cf.buckets.getLast? = some p) :
    flushBucket (n + 1) cf = flushBucket n (cf.release p) := by
  rw [flushBucket, last]
  rfl

variable {front : List HashBucket}

theorem Coherent.thisBucket_ne (held : Coherent table low high cf)
    {p q : HashBucket} (split : cf.buckets = front ++ [p]) (mem : q ∈ front) :
    q.ph.thisBucket ≠ p.ph.thisBucket := by
  have distinct := held.distinct
  rw [split, map_append, nodup_append] at distinct
  exact distinct.2.2 _ (mem_map_of_mem mem) _ (mem_singleton_self _)

theorem Coherent.width_memory (held : Coherent table low high cf)
    (mem : p ∈ cf.buckets) : p.ph.slots.length = hashBucket := by
  obtain ⟨above, below, ph, _⟩ := held.memory p mem
  rw [ph]
  exact length_bucketOf (held.width _ above below)

/-- What a bucket that leaves the memory leaves on disk. -/
theorem Coherent.readBucket_release (held : Coherent table low high cf)
    (mem : p ∈ cf.buckets) : readBucket (cf.release p).file p.ph.thisBucket = some p.ph := by
  unfold CFile.release
  dsimp only
  split
  · exact readBucket_put_self (held.width_memory mem) _
  case isFalse kept => exact held.clean p mem (Bool.eq_false_iff.mpr kept)

theorem Coherent.readBucket_release_of_ne (held : Coherent table low high cf)
    (mem : p ∈ cf.buckets) {number : Nat} {ph : PhBucket} (apart : number ≠ p.ph.thisBucket)
    (read : readBucket cf.file number = some ph) :
    readBucket (cf.release p).file number = some ph := by
  have length := length_words (held.width_memory mem)
  unfold CFile.release
  dsimp only
  split
  · apply readBucket_put read
    rw [length]
    simp only [hashWords]
    omega
  · exact read

theorem Coherent.release (held : Coherent table low high cf) (split : cf.buckets = front ++ [p]) :
    Coherent table low high (cf.release p) := by
  have rest : (cf.release p).buckets = front := by
    rw [CFile.release, split]
    exact dropLast_concat
  have inside : ∀ q ∈ front, q ∈ cf.buckets := by
    intro q mem
    rw [split]
    exact mem_append_left _ mem
  have here : p ∈ cf.buckets := by
    rw [split]
    exact mem_append_right _ (mem_singleton_self _)
  constructor
  case memory =>
    intro q mem
    rw [rest] at mem
    exact held.memory q (inside q mem)
  case clean =>
    intro q mem kept
    rw [rest] at mem
    exact held.readBucket_release_of_ne here (held.thisBucket_ne split mem)
      (held.clean q (inside q mem) kept)
  case disk =>
    intro number above below absent
    rw [rest] at absent
    by_cases same : number = p.ph.thisBucket
    · obtain ⟨_, _, ph, _⟩ := held.memory p here
      rw [same, held.readBucket_release here, ← ph]
    · apply held.readBucket_release_of_ne here same
      apply held.disk number above below
      intro q mem
      rw [split, mem_append, mem_singleton] at mem
      rcases mem with mem | rfl
      · exact absent q mem
      · exact Ne.symm same
  case distinct =>
    have distinct := held.distinct
    rw [split, map_append, nodup_append] at distinct
    rw [rest]
    exact distinct.1
  case count =>
    have count := held.count
    rw [split, length_append] at count
    rw [rest]
    omega
  case width => exact held.width

theorem Coherent.sameIndex_release (held : Coherent table low high cf)
    (split : cf.buckets = front ++ [p]) :
    SameIndex low high cf (cf.release p) := by
  have here : p ∈ cf.buckets := by
    rw [split]
    exact mem_append_right _ (mem_singleton_self _)
  have length := length_words (held.width_memory here)
  obtain ⟨above, below, _, _⟩ := held.memory p here
  constructor
  case head => rfl
  case array => rfl
  case blocks =>
    unfold CFile.release
    dsimp only
    split <;> rfl
  case diskHead =>
    unfold CFile.release
    dsimp only
    split <;> rfl
  case area =>
    intro i inside
    unfold CFile.release
    dsimp only
    split
    · apply word_put_of_lt
      exact Nat.lt_of_lt_of_le inside (Nat.mul_le_mul_right _ above)
    · rfl
  case size =>
    unfold CFile.release
    dsimp only
    split
    · have most : (p.ph.thisBucket + 1) * hashWords ≤ high * hashWords :=
        Nat.mul_le_mul_right _ below
      rw [Nat.succ_mul] at most
      rw [size_put, length]
      omega
    · exact Nat.le_max_left _ _
  case clean =>
    intro still
    have both : cf.dirty = false ∧ p.dirty = false := Bool.or_eq_false_iff.mp still
    refine ⟨both.1, fun all q mem => ?_⟩
    rw [split, mem_append, mem_singleton] at mem
    rcases mem with mem | rfl
    · apply all
      rw [CFile.release, split]
      dsimp only
      rw [dropLast_concat]
      exact mem
    · exact both.2

/-- Flushing keeps the table; of the buckets in memory the oldest go. -/
theorem Coherent.flushBucket (held : Coherent table low high cf) (n : Nat) :
    Coherent table low high (flushBucket n cf) ∧ SameIndex low high cf (flushBucket n cf) ∧
      (Bfile.flushBucket n cf).buckets = cf.buckets.take (cf.buckets.length - n) := by
  induction n generalizing cf with
  | zero => exact ⟨held, SameIndex.refl _ _ _, (take_length).symm⟩
  | succ n induction =>
    rcases eq_nil_or_concat cf.buckets with none | ⟨front, p, split⟩
    · have same : Bfile.flushBucket (n + 1) cf = cf := by
        rw [Bfile.flushBucket, none]
        rfl
      rw [same, none]
      exact ⟨held, SameIndex.refl _ _ _, take_nil.symm⟩
    · rw [concat_eq_append] at split
      have last : cf.buckets.getLast? = some p := by
        rw [split]
        exact getLast?_concat
      have rest : (cf.release p).buckets = front := by
        rw [CFile.release, split]
        exact dropLast_concat
      obtain ⟨still, same, buckets⟩ := induction (held.release split)
      rw [flushBucket_succ n last]
      refine ⟨still, (held.sameIndex_release split).trans same, ?_⟩
      rw [buckets, rest, split, length_append, length_singleton, Nat.add_sub_add_right,
        take_append_of_le_length (Nat.sub_le _ _)]

theorem Coherent.flushAll (held : Coherent table low high cf) :
    Coherent table low high (flushAll cf) ∧ SameIndex low high cf (flushAll cf) ∧
      (Bfile.flushAll cf).buckets = [] := by
  obtain ⟨still, same, buckets⟩ := held.flushBucket cf.buckets.length
  rw [Nat.sub_self, take_zero] at buckets
  exact ⟨still, same, buckets⟩

theorem Coherent.makeRoom (held : Coherent table low high cf) :
    Coherent table low high (makeRoom cf) ∧ SameIndex low high cf (makeRoom cf) ∧
      (Bfile.makeRoom cf).buckets.length < maxBucketInMemory ∧
      ∀ p ∈ (Bfile.makeRoom cf).buckets, p ∈ cf.buckets := by
  have count := held.count
  unfold Bfile.makeRoom
  split
  case isTrue full =>
    obtain ⟨still, same, buckets⟩ := held.flushBucket 1
    refine ⟨still, same, ?_, fun p mem => ?_⟩
    · rw [buckets, length_take, full]
      decide
    · rw [buckets] at mem
      exact mem_of_mem_take mem
  case isFalse room =>
    exact ⟨held, SameIndex.refl _ _ _, by omega, fun _ mem => mem⟩

theorem Coherent.congr (held : Coherent table low high cf) {other : CFile}
    (buckets : other.buckets = cf.buckets) (file : other.file = cf.file) :
    Coherent table low high other := by
  constructor
  case memory => rw [buckets]; exact held.memory
  case clean => rw [buckets, file]; exact held.clean
  case disk => rw [buckets, file]; exact held.disk
  case distinct => rw [buckets]; exact held.distinct
  case count => rw [buckets]; exact held.count
  case width => exact held.width

theorem Coherent.push (held : Coherent table low high cf)
    (above : low ≤ p.ph.thisBucket) (below : p.ph.thisBucket < high)
    (ph : p.ph = table.bucket p.ph.thisBucket) (hno : p.hno = table.owner p.ph.thisBucket)
    (clean : p.dirty = false → readBucket cf.file p.ph.thisBucket = some p.ph)
    (absent : ∀ q ∈ cf.buckets, q.ph.thisBucket ≠ p.ph.thisBucket)
    (room : cf.buckets.length < maxBucketInMemory) : Coherent table low high (cf.push p) := by
  constructor
  case memory =>
    intro q mem
    rcases mem_cons.mp mem with rfl | mem
    · exact ⟨above, below, ph, hno⟩
    · exact held.memory q mem
  case clean =>
    intro q mem
    rcases mem_cons.mp mem with rfl | mem
    · exact clean
    · exact held.clean q mem
  case disk =>
    intro number above below none
    exact held.disk number above below fun q mem => none q (.tail _ mem)
  case distinct =>
    apply nodup_cons.mpr
    refine ⟨fun mem => ?_, held.distinct⟩
    obtain ⟨q, inside, same⟩ := mem_map.mp mem
    exact absent q inside same
  case count => exact room
  case width => exact held.width

theorem Coherent.getBucket (held : Coherent table low high cf) {number : Nat}
    (above : low ≤ number) (below : number < high)
    (absent : ∀ p ∈ cf.buckets, p.ph.thisBucket ≠ number) :
    ∃ after, getBucket cf number (table.owner number) =
        some (after, { ph := table.bucket number, hno := table.owner number, dirty := false }) ∧
      Coherent table low high after ∧ SameIndex low high cf after ∧
      after.buckets.head? =
        some { ph := table.bucket number, hno := table.owner number, dirty := false } ∧
      ∀ p ∈ after.buckets.tail, p ∈ cf.buckets := by
  obtain ⟨roomy, same, room, fewer⟩ := held.makeRoom
  have gone : ∀ p ∈ (Bfile.makeRoom cf).buckets, p.ph.thisBucket ≠ number :=
    fun p mem => absent p (fewer p mem)
  have read := roomy.disk number above below gone
  have this : (table.bucket number).thisBucket = number := rfl
  refine ⟨(Bfile.makeRoom cf).push
      { ph := table.bucket number, hno := table.owner number, dirty := false }, ?_, ?_, ?_, rfl,
    fewer⟩
  · rw [Bfile.getBucket, read]
    dsimp only
    rw [if_pos this]
  · exact roomy.push above below rfl rfl (fun _ => read) gone room
  · apply same.trans
    constructor
    case head => rfl
    case array => rfl
    case blocks => rfl
    case diskHead => rfl
    case area => exact fun _ _ => rfl
    case size => exact Nat.le_max_left _ _
    case clean =>
      exact fun still => ⟨still, fun all p mem => all p (.tail _ mem)⟩

/-- The search of a chain of buckets in memory for a bucket. -/
theorem Coherent.find_chain (held : Coherent table low high cf) (number : Nat) :
    (∃ p ∈ cf.buckets, p.ph = table.bucket number ∧ p.hno = table.owner number ∧
      (cf.chain (table.owner number)).find? (fun hb => hb.ph.thisBucket = number) = some p) ∨
    ((∀ p ∈ cf.buckets, p.ph.thisBucket ≠ number) ∧
      (cf.chain (table.owner number)).find? (fun hb => hb.ph.thisBucket = number) = none) := by
  cases found : (cf.chain (table.owner number)).find? (fun hb => hb.ph.thisBucket = number) with
  | some p =>
    have mem : p ∈ cf.buckets := (mem_filter.mp (mem_of_find?_eq_some found)).1
    have this : p.ph.thisBucket = number := of_decide_eq_true (find?_some found :)
    obtain ⟨_, _, ph, hno⟩ := held.memory p mem
    rw [this] at ph hno
    exact Or.inl ⟨p, mem, ph, hno, rfl⟩
  | none =>
    refine Or.inr ⟨fun p mem this => ?_, rfl⟩
    obtain ⟨_, _, _, hno⟩ := held.memory p mem
    rw [this] at hno
    have inside : p ∈ cf.chain (table.owner number) :=
      mem_filter.mpr ⟨mem, decide_eq_true hno⟩
    exact find?_eq_none.mp found p inside (decide_eq_true this)

/-- The walk of `cf_lookup_hash` along the rest of a chain, when no bucket of the chain in memory
has the number. -/
theorem Coherent.lookupChain (held : Coherent table low high cf) {hno no fuel start : Nat}
    {rest : List Nat} (follows : Follows table.next start rest)
    (inside : ∀ b ∈ rest, low ≤ b ∧ b < high ∧ table.owner b = hno) (enough : rest.length ≤ fuel)
    (unseen : ∀ p ∈ cf.buckets, p.hno = hno → p.ph.find no = none) :
    ∃ after found, lookupChain hno no fuel cf start = some (after, found) ∧
      Coherent table low high after ∧ SameIndex low high cf after ∧
      (∀ vno, found = some vno → ∃ b ∈ rest, (table.bucket b).find no = some vno) ∧
      (found = none → (∀ b ∈ rest, (table.bucket b).find no = none) ∧
        ∀ p ∈ after.buckets, p.hno = hno → p.ph.find no = none) := by
  induction follows generalizing cf fuel with
  | nil =>
    refine ⟨cf, none, ?_, held, SameIndex.refl _ _ _,
      fun _ eq => (by cases eq), fun _ => ⟨?_, unseen⟩⟩
    · cases fuel <;> exact if_pos rfl
    · exact fun _ mem => absurd mem not_mem_nil
  | @cons number rest named _ induction =>
    cases fuel with
    | zero => exact absurd enough (Nat.not_succ_le_zero _)
    | succ fuel =>
      have enough' : rest.length ≤ fuel := Nat.le_of_succ_le_succ enough
      obtain ⟨above, below, owner⟩ := inside number (mem_cons_self ..)
      have inside' := fun b mem => inside b (mem_cons_of_mem number mem)
      rw [Bfile.lookupChain, if_neg named]
      subst owner
      rcases held.find_chain number with ⟨p, mem, ph, hno, seen⟩ | ⟨absent, seen⟩
      · rw [seen]
        have next : p.ph.nextBucket = table.next number := by rw [ph]; rfl
        have here := unseen p mem hno
        rw [ph] at here
        obtain ⟨after, found, run, still, same, some, none⟩ :=
          induction held inside' enough' unseen
        refine ⟨after, found, ?_, still, same, fun vno eq => ?_, fun eq => ⟨?_, (none eq).2⟩⟩
        · dsimp only
          rw [next, run]
        · obtain ⟨b, mem, holds⟩ := some vno eq
          exact ⟨b, .tail _ mem, holds⟩
        · intro b mem
          rcases mem_cons.mp mem with rfl | mem
          · exact here
          · exact (none eq).1 b mem
      · have miss : Coherent table low high { cf with noMiss := cf.noMiss + 1 } :=
          held.congr rfl rfl
        obtain ⟨read, run, coherent, same, front, back⟩ := miss.getBucket above below absent
        have missSame : SameIndex low high cf { cf with noMiss := cf.noMiss + 1 } :=
          SameIndex.counted low high cf cf.noHits (cf.noMiss + 1)
        rw [seen]
        dsimp only
        rw [run]
        dsimp only
        cases here : (table.bucket number).find no with
        | some vno =>
          refine ⟨read, some vno, rfl, coherent, missSame.trans same, fun other eq => ?_,
            fun eq => (by cases eq)⟩
          exact ⟨number, mem_cons_self .., here.trans eq⟩
        | none =>
          have unseen' : ∀ p ∈ read.buckets, p.hno = table.owner number → p.ph.find no = none := by
            intro p mem hno
            obtain ⟨others, split⟩ := head?_eq_some_iff.mp front
            rw [split] at mem back
            rcases mem_cons.mp mem with rfl | mem
            · exact here
            · exact unseen p (back p mem) hno
          obtain ⟨after, found, run', still, same', some, none⟩ :=
            induction coherent inside' enough' unseen'
          refine ⟨after, found, run', still, (missSame.trans same).trans same',
            fun vno eq => ?_, fun eq => ⟨?_, (none eq).2⟩⟩
          · obtain ⟨b, mem, holds⟩ := some vno eq
            exact ⟨b, .tail _ mem, holds⟩
          · intro b mem
            rcases mem_cons.mp mem with rfl | mem
            · exact here
            · exact (none eq).1 b mem

theorem Coherent.setBucket (held : Coherent table low high cf)
    (mem : p ∈ cf.buckets) {table' : Table} {ph : PhBucket}
    (same : ph = table'.bucket p.ph.thisBucket)
    (used : ∀ b, b ≠ p.ph.thisBucket → table'.used b = table.used b)
    (next : ∀ b, b ≠ p.ph.thisBucket → table'.next b = table.next b)
    (owner : table'.owner = table.owner)
    (width : (table'.used p.ph.thisBucket).length ≤ hashBucket) :
    Coherent table' low high (cf.setBucket { p with ph, dirty := true }) := by
  have this : ph.thisBucket = p.ph.thisBucket := by rw [same]; rfl
  have others : ∀ b, b ≠ p.ph.thisBucket → table'.bucket b = table.bucket b := by
    intro b apart
    rw [Table.bucket, used b apart, next b apart]
    rfl
  have cases : ∀ q ∈ (cf.setBucket { p with ph, dirty := true }).buckets,
      q = { p with ph, dirty := true } ∨ q ∈ cf.buckets ∧ q.ph.thisBucket ≠ p.ph.thisBucket := by
    intro q inside
    obtain ⟨old, was, rfl⟩ := mem_map.mp inside
    by_cases hit : old.ph.thisBucket = ph.thisBucket
    · exact Or.inl (if_pos hit)
    · right
      rw [if_neg hit]
      rw [this] at hit
      exact ⟨was, hit⟩
  have numbers : (cf.setBucket { p with ph, dirty := true }).buckets.map
      (fun q => q.ph.thisBucket) = cf.buckets.map fun q => q.ph.thisBucket := by
    rw [CFile.setBucket, map_map]
    apply map_congr_left
    intro q _
    dsimp only [Function.comp_apply]
    split
    case isTrue hit => exact hit.symm
    case isFalse => rfl
  constructor
  case memory =>
    intro q inside
    rcases cases q inside with rfl | ⟨was, apart⟩
    · obtain ⟨above, below, _, hno⟩ := held.memory p mem
      dsimp only
      rw [this, owner]
      exact ⟨above, below, same, hno⟩
    · obtain ⟨above, below, ph, hno⟩ := held.memory q was
      rw [others _ apart, owner]
      exact ⟨above, below, ph, hno⟩
  case clean =>
    intro q inside kept
    rcases cases q inside with rfl | ⟨was, _⟩
    · cases kept
    · exact held.clean q was kept
  case disk =>
    intro number above below absent
    have gone : ∀ q ∈ cf.buckets, q.ph.thisBucket ≠ number := by
      intro q was eq
      have inside : number ∈ (cf.setBucket { p with ph, dirty := true }).buckets.map
          (fun q => q.ph.thisBucket) := by
        rw [numbers]
        exact mem_map.mpr ⟨q, was, eq⟩
      obtain ⟨r, there, hit⟩ := mem_map.mp inside
      exact absent r there hit
    rw [others number (gone p mem).symm]
    exact held.disk number above below gone
  case distinct =>
    rw [numbers]
    exact held.distinct
  case count =>
    rw [CFile.setBucket, length_map]
    exact held.count
  case width =>
    intro number above below
    by_cases hit : number = p.ph.thisBucket
    · rw [hit]
      exact width
    · rw [used number hit]
      exact held.width number above below

end

end Zebra.Bfile
