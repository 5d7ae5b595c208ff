import Zebra.Bfile.HashForm

/-!
# Shadow files with a flat array

The array lies behind the buckets, which `cf_moveto_flat` reads while it writes it.
-/

namespace Zebra.Bfile

open List

/-- A shadow file with a flat array. -/
structure FlatForm (cf : CFile) : Prop where
  state : cf.head.state = .flat
  buckets : cf.buckets = []
  hashSize : 2 < cf.head.hashSize
  nextBucket : 0 < cf.head.nextBucket
  positive : 0 < cf.head.nextBlock
  less : ∀ no vno, Maps cf no vno → vno < cf.head.nextBlock
  one : OneToOne (Maps cf)

section

variable {cf : CFile}

theorem flat_index (no nextBucket : Nat) :
    (no / hashWords + nextBucket) * hashWords + no % hashWords = nextBucket * hashWords + no := by
  simp only [hashWords]
  omega

theorem word_cfWriteFlat (cf : CFile) (no vno i : Nat) :
    (cfWriteFlat cf no vno).file.word i =
      if i = cf.head.nextBucket * hashWords + no then vno else cf.file.word i := by
  unfold cfWriteFlat
  dsimp only
  rw [flat_index, word_put_one]

theorem head_cfWriteFlat (cf : CFile) (no vno : Nat) :
    ∃ flat, (cfWriteFlat cf no vno).head = { cf.head with flatBucket := flat } := by
  unfold cfWriteFlat
  dsimp only
  split
  · exact ⟨_, rfl⟩
  · exact ⟨cf.head.flatBucket, rfl⟩

theorem maps_flat (flat : cf.head.state = .flat) (no vno : Nat) :
    Maps cf no vno ↔ vno ≠ 0 ∧ cf.file.word (cf.head.nextBucket * hashWords + no) = vno := by
  unfold Maps
  rw [flat]

theorem cfLookupFlat_eq (flat : cf.head.state = .flat) (no vno : Nat) :
    cfLookupFlat cf no = some vno ↔ Maps cf no vno := by
  rw [maps_flat flat, cfLookupFlat, flat_index]
  constructor
  · intro eq
    split at eq
    case isTrue mapped =>
      cases eq
      exact ⟨mapped, rfl⟩
    case isFalse => cases eq
  · rintro ⟨mapped, rfl⟩
    exact if_pos mapped

/-- A block that is not mapped yet gets the next shadow block. -/
theorem FlatForm.cfNewFlat (form : FlatForm cf) {no : Nat} (new : ∀ v, ¬ Maps cf no v) :
    FlatForm (cfNewFlat cf no).1 ∧ (cfNewFlat cf no).2 = cf.head.nextBlock ∧
      ∀ n v, Maps (Bfile.cfNewFlat cf no).1 n v ↔
        Maps cf n v ∨ n = no ∧ v = cf.head.nextBlock := by
  obtain ⟨flat, head⟩ := head_cfWriteFlat
    { cf with head := { cf.head with nextBlock := cf.head.nextBlock + 1 } } no cf.head.nextBlock
  have head' : (Bfile.cfNewFlat cf no).1.head =
      { cf.head with nextBlock := cf.head.nextBlock + 1, flatBucket := flat } := head
  have state : (Bfile.cfNewFlat cf no).1.head.state = .flat := by
    rw [head']
    exact form.state
  have absent : cf.file.word (cf.head.nextBucket * hashWords + no) = 0 := by
    by_contra mapped
    exact new _ ((maps_flat form.state no _).mpr ⟨mapped, rfl⟩)
  have word : ∀ n, (Bfile.cfNewFlat cf no).1.file.word (cf.head.nextBucket * hashWords + n) =
      if n = no then cf.head.nextBlock
      else cf.file.word (cf.head.nextBucket * hashWords + n) := by
    intro n
    unfold Bfile.cfNewFlat
    dsimp only
    rw [word_cfWriteFlat]
    dsimp only
    simp only [Nat.add_left_cancel_iff]
  have grows : ∀ n v, Maps (Bfile.cfNewFlat cf no).1 n v ↔
      Maps cf n v ∨ n = no ∧ v = cf.head.nextBlock := by
    intro n v
    rw [maps_flat state, maps_flat form.state, head', word]
    by_cases same : n = no
    · subst same
      rw [if_pos rfl, absent]
      constructor
      · rintro ⟨_, eq⟩
        exact Or.inr ⟨rfl, eq.symm⟩
      · rintro (⟨mapped, eq⟩ | ⟨_, rfl⟩)
        · exact absurd eq.symm mapped
        · exact ⟨Nat.ne_of_gt form.positive, rfl⟩
    · rw [if_neg same]
      exact (or_iff_left fun both => same both.1).symm
  refine ⟨⟨state, form.buckets, ?_, ?_, ?_, ?_, ?_⟩, rfl, grows⟩
  · rw [head']
    exact form.hashSize
  · rw [head']
    exact form.nextBucket
  · rw [head']
    exact Nat.succ_pos _
  · intro n v maps
    rw [head']
    rcases (grows n v).mp maps with old | ⟨_, rfl⟩
    · exact Nat.lt_succ_of_lt (form.less n v old)
    · exact Nat.lt_succ_self _
  · apply form.one.add new _ grows
    intro n maps
    exact Nat.lt_irrefl _ (form.less n _ maps)

/-- The slots of a bucket are written to the flat array. -/
def writeSlots (slots : List (Nat × Nat)) (cf : CFile) : CFile :=
  slots.foldl (fun cf slot => cfWriteFlat cf slot.1 slot.2) cf

theorem writeSlots_cons (slot : Nat × Nat) (slots : List (Nat × Nat)) (cf : CFile) :
    writeSlots (slot :: slots) cf = writeSlots slots (cfWriteFlat cf slot.1 slot.2) :=
  rfl

theorem head_writeSlots (slots : List (Nat × Nat)) (cf : CFile) :
    ∃ flat, (writeSlots slots cf).head = { cf.head with flatBucket := flat } := by
  induction slots generalizing cf with
  | nil => exact ⟨cf.head.flatBucket, rfl⟩
  | cons slot slots induction =>
    obtain ⟨first, head⟩ := head_cfWriteFlat cf slot.1 slot.2
    obtain ⟨flat, rest⟩ := induction (cfWriteFlat cf slot.1 slot.2)
    refine ⟨flat, ?_⟩
    rw [writeSlots_cons, rest, head]

theorem buckets_writeSlots (slots : List (Nat × Nat)) (cf : CFile) :
    (writeSlots slots cf).buckets = cf.buckets := by
  induction slots generalizing cf with
  | nil => rfl
  | cons slot slots induction => exact induction (cfWriteFlat cf slot.1 slot.2)

theorem readBucket_writeSlots (slots : List (Nat × Nat)) (cf : CFile) {number : Nat}
    {ph : PhBucket} (below : number < cf.head.nextBucket)
    (read : readBucket cf.file number = some ph) :
    readBucket (writeSlots slots cf).file number = some ph := by
  induction slots generalizing cf with
  | nil => exact read
  | cons slot slots induction =>
    rw [writeSlots_cons]
    obtain ⟨flat, head⟩ := head_cfWriteFlat cf slot.1 slot.2
    apply induction
    · rw [head]
      exact below
    · apply readBucket_put read
      left
      rw [flat_index]
      exact Nat.le_add_right_of_le (Nat.mul_le_mul_right _ below)

theorem word_writeSlots_of_not_mem {slots : List (Nat × Nat)} {no : Nat}
    (absent : ∀ v, (no, v) ∉ slots) (cf : CFile) :
    (writeSlots slots cf).file.word (cf.head.nextBucket * hashWords + no) =
      cf.file.word (cf.head.nextBucket * hashWords + no) := by
  induction slots generalizing cf with
  | nil => rfl
  | cons slot slots induction =>
    obtain ⟨flat, head⟩ := head_cfWriteFlat cf slot.1 slot.2
    have rest := induction (fun v mem => absent v (.tail _ mem))
      (cfWriteFlat cf slot.1 slot.2)
    rw [head] at rest
    dsimp only at rest
    rw [writeSlots_cons, rest, word_cfWriteFlat, if_neg]
    intro eq
    have same : no = slot.1 := Nat.add_left_cancel eq
    apply absent slot.2
    rw [same]
    exact mem_cons_self ..

theorem word_writeSlots_of_mem {slots : List (Nat × Nat)} {no vno : Nat}
    (mem : (no, vno) ∈ slots) (only : ∀ v, (no, v) ∈ slots → v = vno) (cf : CFile) :
    (writeSlots slots cf).file.word (cf.head.nextBucket * hashWords + no) = vno := by
  induction slots generalizing cf with
  | nil => cases mem
  | cons slot slots induction =>
    obtain ⟨flat, head⟩ := head_cfWriteFlat cf slot.1 slot.2
    by_cases later : ∃ v, (no, v) ∈ slots
    · obtain ⟨v, inside⟩ := later
      have eq := only v (.tail _ inside)
      rw [eq] at inside
      have rest := induction inside (fun w mem => only w (.tail _ mem))
        (cfWriteFlat cf slot.1 slot.2)
      rw [head] at rest
      exact rest
    · have rest := word_writeSlots_of_not_mem (fun v mem => later ⟨v, mem⟩)
        (cfWriteFlat cf slot.1 slot.2)
      rw [head] at rest
      dsimp only at rest
      rcases mem_cons.mp mem with rfl | mem
      · rw [writeSlots_cons, rest, word_cfWriteFlat, if_pos rfl]
      · exact absurd ⟨vno, mem⟩ later

theorem moveBuckets_eq {table : Table} (rounds i : Nat) (cf : CFile)
    (inside : i + rounds ≤ cf.head.nextBucket)
    (read : ∀ b, i ≤ b → b < i + rounds → readBucket cf.file b = some (table.bucket b))
    (mapped : ∀ b, i ≤ b → b < i + rounds → ∀ slot ∈ table.used b, slot.2 ≠ 0) :
    moveBuckets rounds i cf =
      some (writeSlots ((range' i rounds).flatMap table.used) cf) := by
  induction rounds generalizing i cf with
  | zero => rfl
  | succ rounds induction =>
    obtain ⟨flat, head⟩ := head_writeSlots (table.used i) cf
    have used : (table.bucket i).used = table.used i :=
      used_bucketOf (mapped i (Nat.le_refl _) (by omega))
    rw [moveBuckets, read i (Nat.le_refl _) (by omega)]
    dsimp only
    rw [used, ← writeSlots, induction (i + 1), range'_succ, flatMap_cons]
    · unfold writeSlots
      rw [foldl_append]
    · rw [head]
      dsimp only
      omega
    · intro b above below
      apply readBucket_writeSlots _ _ (by omega)
      exact read b (by omega) (by omega)
    · exact fun b above below => mapped b (by omega) (by omega)

theorem HashForm.cfMovetoFlat {table : Table} {chain : Nat → List Nat}
    (form : HashForm table chain cf) :
    ∃ after, cfMovetoFlat cf = some after ∧ FlatForm after ∧
      (∀ n v, Maps after n v ↔ Maps cf n v) ∧ after.head.nextBlock = cf.head.nextBlock ∧
      after.head.blockSize = cf.head.blockSize ∧ after.dirty = true := by
  obtain ⟨coherent, same, empty⟩ := form.coherent.flushAll
  have flushed := form.same coherent same
  have area := form.sound.area
  have order := form.sound.order
  have range : cf.head.firstBucket + (cf.head.nextBucket - cf.head.firstBucket) =
      cf.head.nextBucket := by omega
  have inside : cf.head.firstBucket + (cf.head.nextBucket - cf.head.firstBucket) ≤
      (flushAll cf).head.nextBucket := by
    rw [range, same.head]
  have moved := moveBuckets_eq (cf.head.nextBucket - cf.head.firstBucket) cf.head.firstBucket
    (flushAll cf) inside
    (fun b above below => coherent.disk b above (by omega) (fun p mem => by
      rw [empty] at mem
      cases mem))
    (fun b above below => form.sound.mapped above (by omega))
  generalize slotsEq : (range' cf.head.firstBucket
    (cf.head.nextBucket - cf.head.firstBucket)).flatMap table.used = slots at moved
  have stored : ∀ n v, (n, v) ∈ slots ↔ Maps cf n v := by
    intro n v
    rw [form.maps_iff, ← slotsEq, mem_flatMap]
    constructor
    · rintro ⟨b, mem, there⟩
      obtain ⟨above, below⟩ := mem_range'_1.mp mem
      exact ⟨b, above, by omega, there⟩
    · rintro ⟨b, above, below, there⟩
      exact ⟨b, mem_range'_1.mpr ⟨above, by omega⟩, there⟩
  have one : OneToOne (Maps cf) := form.sound.one.congr form.maps_iff
  obtain ⟨flat, head⟩ := head_writeSlots slots (flushAll cf)
  rw [same.head] at head
  have empty' := (buckets_writeSlots slots (flushAll cf)).trans empty
  have hole : ∀ n, (flushAll cf).file.word (cf.head.nextBucket * hashWords + n) = 0 := by
    intro n
    have size := flushed.size
    rw [same.head] at size
    exact if_neg (by omega)
  have maps : ∀ n v, v ≠ 0 ∧ (writeSlots slots (flushAll cf)).file.word
      (cf.head.nextBucket * hashWords + n) = v ↔ Maps cf n v := by
    intro n v
    by_cases mapped : ∃ w, (n, w) ∈ slots
    · obtain ⟨w, mem⟩ := mapped
      have maps := (stored n w).mp mem
      have word := word_writeSlots_of_mem mem
        (fun u there => one.single n u w ((stored n u).mp there) maps) (flushAll cf)
      rw [same.head] at word
      rw [word]
      constructor
      · rintro ⟨_, rfl⟩
        exact maps
      · intro also
        have eq := one.single n v w also maps
        refine ⟨?_, eq.symm⟩
        obtain ⟨b, above, below, there⟩ := (form.maps_iff n v).mp also
        exact form.sound.mapped above below _ there
    · have word := word_writeSlots_of_not_mem (fun w mem => mapped ⟨w, mem⟩) (flushAll cf)
      rw [same.head, hole] at word
      rw [word]
      constructor
      · rintro ⟨nonzero, eq⟩
        exact absurd eq.symm nonzero
      · intro also
        exact absurd ⟨v, (stored n v).mpr also⟩ mapped
  refine ⟨{ writeSlots slots (flushAll cf) with
    array := fun _ => 0
    head := { (writeSlots slots (flushAll cf)).head with state := .flat }
    dirty := true }, ?_, ⟨rfl, empty', ?_, ?_, ?_, ?_, ?_⟩, ?_, ?_, ?_, rfl⟩
  · unfold Bfile.cfMovetoFlat
    dsimp only
    rw [moved]
    rfl
  · rw [head]
    exact form.sound.hashSize
  · rw [head]
    simp only [hashWords] at area
    dsimp only
    omega
  · rw [head]
    exact form.sound.positive
  · intro n v also
    rw [maps_flat rfl] at also
    rw [head] at also ⊢
    dsimp only at also ⊢
    obtain ⟨b, above, below, there⟩ := (form.maps_iff n v).mp ((maps n v).mp also)
    exact (form.sound.slots b above below _ there).2.1
  · apply one.congr
    intro n v
    rw [maps_flat rfl, head]
    exact maps n v
  · intro n v
    rw [maps_flat rfl, head]
    exact maps n v
  · rw [head]
  · rw [head]

end

end Zebra.Bfile
