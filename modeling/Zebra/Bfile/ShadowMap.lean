import Zebra.Bfile.FlatForm

/-!
# The map of a shadow file is kept

Every call keeps what is mapped, in the hash table, in the flat array, from the one to the other and
over closing and opening again.
-/

namespace Zebra.Bfile

open List

def Settled (cf : CFile) : Prop :=
  cf.dirty = false → (∀ p ∈ cf.buckets, p.dirty = false) →
    cf.file.head = some cf.head ∧
      (cf.head.state = .hash →
        ∀ h, h < cf.head.hashSize → cf.file.word (hashWords + h) = cf.array h)

structure Shadow (blockSize : Nat) (cf : CFile) : Prop where
  form : (∃ table chain, HashForm table chain cf) ∨ FlatForm cf
  settled : Settled cf
  blockSize : cf.head.blockSize = blockSize

section

variable {blockSize : Nat} {cf : CFile}

theorem Shadow.one (shadow : Shadow blockSize cf) : OneToOne (Maps cf) := by
  rcases shadow.form with ⟨table, chain, form⟩ | form
  · exact form.sound.one.congr form.maps_iff
  · exact form.one

theorem settled_same {low high : Nat} {after : CFile} (settled : Settled cf)
    (same : SameIndex low high cf after) (area : hashWords + cf.head.hashSize ≤ low * hashWords) :
    Settled after := by
  intro clean all
  obtain ⟨before, buckets⟩ := same.clean clean
  obtain ⟨head, array⟩ := settled before (buckets all)
  rw [same.diskHead, same.head, same.array]
  refine ⟨head, fun hash h low => ?_⟩
  rw [same.area _ (by omega)]
  exact array hash h low

theorem Shadow.cfLookup (shadow : Shadow blockSize cf) (no : Nat) :
    ∃ after found, cfLookup cf no = some (after, found) ∧ Shadow blockSize after ∧
      (∀ n v, Maps after n v ↔ Maps cf n v) ∧ ∀ v, found = some v ↔ Maps cf no v := by
  rcases shadow.form with ⟨table, chain, form⟩ | form
  · obtain ⟨after, found, run, form', same, some, none⟩ := form.cfLookupHash no
    have maps : ∀ n v, Maps after n v ↔ Maps cf n v := by
      intro n v
      rw [form'.maps_iff, form.maps_iff, same.head]
    refine ⟨after, found, ?_, ⟨.inl ⟨table, chain, form'⟩, ?_, ?_⟩, maps, fun v => ?_⟩
    · rw [Bfile.cfLookup, form.state]
      exact run
    · exact settled_same shadow.settled same form.sound.area
    · rw [same.head]
      exact shadow.blockSize
    · rw [form.maps_iff]
      constructor
      · exact some v
      · intro stored
        cases found with
        | none => exact absurd stored (none rfl v)
        | some w => rw [form.sound.one.single no v w stored (some w rfl)]
  · refine ⟨cf, cfLookupFlat cf no, ?_, shadow, fun _ _ => Iff.rfl, fun v => ?_⟩
    · rw [Bfile.cfLookup, if_pos form.state]
    · exact cfLookupFlat_eq form.state no v

theorem Shadow.cfNew (shadow : Shadow blockSize cf) {no : Nat} (new : ∀ v, ¬ Maps cf no v) :
    ∃ after vno, cfNew cf no = some (after, vno) ∧ vno ≠ 0 ∧ Shadow blockSize after ∧
      ∀ n v, Maps after n v ↔ Maps cf n v ∨ n = no ∧ v = vno := by
  rcases shadow.form with ⟨table, chain, form⟩ | form
  · by_cases full : cf.noHits < cf.noMiss * 2
    · obtain ⟨flat, moved, form', maps, nextBlock, size, _⟩ := form.cfMovetoFlat
      obtain ⟨final, vno, grows⟩ := form'.cfNewFlat fun v also => new v ((maps no v).mp also)
      obtain ⟨last, head⟩ := head_cfWriteFlat
        { flat with head := { flat.head with nextBlock := flat.head.nextBlock + 1 } } no
          flat.head.nextBlock
      refine ⟨(cfNewFlat flat no).1, flat.head.nextBlock, ?_, ?_, ⟨.inr final, ?_, ?_⟩, ?_⟩
      · rw [Bfile.cfNew, form.state, if_neg (by decide), if_pos full, moved]
        rfl
      · exact Nat.ne_of_gt form'.positive
      · intro clean
        cases clean
      · have blockSize' : (cfNewFlat flat no).1.head.blockSize = flat.head.blockSize := by
          unfold cfNewFlat
          dsimp only
          rw [head]
        rw [blockSize', size]
        exact shadow.blockSize
      · intro n v
        rw [grows, maps]
    · obtain ⟨after, run, ⟨table', chain', form', stored⟩, dirty, size⟩ :=
        form.cfNewHash fun v also => new v ((form.maps_iff no v).mpr also)
      refine ⟨after, cf.head.nextBlock, ?_, ?_, ⟨.inl ⟨table', chain', form'⟩, ?_, ?_⟩, ?_⟩
      · rw [Bfile.cfNew, form.state, if_neg (by decide), if_neg full]
        exact run
      · exact Nat.ne_of_gt form.sound.positive
      · intro _ all
        obtain ⟨p, mem, isDirty⟩ := dirty
        rw [all p mem] at isDirty
        cases isDirty
      · exact size.trans shadow.blockSize
      · intro n v
        rw [form'.maps_iff, form.maps_iff, stored]
  · obtain ⟨final, vno, grows⟩ := form.cfNewFlat new
    obtain ⟨last, head⟩ := head_cfWriteFlat
      { cf with head := { cf.head with nextBlock := cf.head.nextBlock + 1 } } no
        cf.head.nextBlock
    refine ⟨(cfNewFlat cf no).1, cf.head.nextBlock, ?_, ?_, ⟨.inr final, ?_, ?_⟩, grows⟩
    · rw [Bfile.cfNew, if_pos form.state]
      rfl
    · exact Nat.ne_of_gt form.positive
    · intro clean
      cases clean
    · have blockSize' : (cfNewFlat cf no).1.head.blockSize = cf.head.blockSize := by
        unfold cfNewFlat
        dsimp only
        rw [head]
      rw [blockSize']
      exact shadow.blockSize

theorem Shadow.blocks (shadow : Shadow blockSize cf) (iobuf : List Nat)
    (blocks : Nat → Option (List Nat)) :
    Shadow blockSize { cf with iobuf, file := { cf.file with blockMf := blocks } } ∧
      ∀ n v, Maps { cf with iobuf, file := { cf.file with blockMf := blocks } } n v ↔
        Maps cf n v := by
  refine ⟨⟨?_, shadow.settled, shadow.blockSize⟩, fun _ _ => Iff.rfl⟩
  rcases shadow.form with ⟨table, chain, form⟩ | form
  · left
    refine ⟨table, chain, form.state, ?_, form.sound, form.size⟩
    obtain ⟨memory, clean, disk, distinct, count, width⟩ := form.coherent
    exact ⟨memory, clean, disk, distinct, count, width⟩
  · right
    obtain ⟨state, buckets, hashSize, nextBucket, positive, less, one⟩ := form
    exact ⟨state, buckets, hashSize, nextBucket, positive, less, ⟨one.single, one.injective⟩⟩

theorem Shadow.cfWrite (shadow : Shadow blockSize cf) (rmf : Nat → List Nat → List Nat)
    (no offset nbytes : Nat) (buf : List Nat) :
    ∃ after, cfWrite rmf cf no offset nbytes buf = some after ∧ Shadow blockSize after ∧
      (∀ n v, Maps cf n v → Maps after n v) ∧ ∃ v, Maps after no v := by
  obtain ⟨looked, found, run, shadow', maps, holds⟩ := shadow.cfLookup no
  unfold Bfile.cfWrite
  rw [run]
  cases found with
  | some block =>
    obtain ⟨still, same⟩ := shadow'.blocks looked.iobuf
      (looked.writeBlock block offset nbytes buf).file.blockMf
    refine ⟨looked.writeBlock block offset nbytes buf, rfl, still, fun n v old => ?_, block, ?_⟩
    · exact (same n v).mpr ((maps n v).mpr old)
    · exact (same no block).mpr ((maps no block).mpr ((holds block).mp rfl))
  | none =>
    have new : ∀ v, ¬ Maps looked no v := by
      intro v also
      have eq := (holds v).mpr ((maps no v).mp also)
      cases eq
    obtain ⟨grown, vno, run', nonzero, shadow'', grows⟩ := shadow'.cfNew new
    dsimp only
    rw [run']
    dsimp only
    rw [if_neg nonzero]
    have keeps : ∀ n v, Maps cf n v → Maps grown n v :=
      fun n v old => (grows n v).mpr (.inl ((maps n v).mpr old))
    have mapped : Maps grown no vno := (grows no vno).mpr (.inr ⟨rfl, rfl⟩)
    split
    · obtain ⟨still, same⟩ := shadow''.blocks
        (splice (rmf no grown.iobuf) offset (buf.take nbytes)) _
      exact ⟨_, rfl, still, fun n v old => (same n v).mpr (keeps n v old), vno,
        (same no vno).mpr mapped⟩
    · obtain ⟨still, same⟩ := shadow''.blocks grown.iobuf
        (grown.writeBlock vno offset nbytes buf).file.blockMf
      exact ⟨_, rfl, still, fun n v old => (same n v).mpr (keeps n v old), vno,
        (same no vno).mpr mapped⟩

theorem Shadow.cfRead (shadow : Shadow blockSize cf) (no offset nbytes : Nat) :
    ∃ after read, cfRead cf no offset nbytes = some (after, read) ∧ Shadow blockSize after ∧
      ∀ n v, Maps after n v ↔ Maps cf n v := by
  obtain ⟨looked, found, run, shadow', maps, _⟩ := shadow.cfLookup no
  unfold Bfile.cfRead
  rw [run]
  cases found with
  | none => exact ⟨looked, _, rfl, shadow', maps⟩
  | some block =>
    dsimp only
    cases looked.file.blockMf block with
    | none => exact ⟨looked, _, rfl, shadow', maps⟩
    | some bytes => exact ⟨looked, _, rfl, shadow', maps⟩

theorem cfOpenWrite_of_head {file : ShadowFile (List Nat)} {head : CFileHead}
    (disk : file.head = some head) (used : head.state ≠ .unused)
    (size : head.blockSize = blockSize) (hashSize : 2 < head.hashSize)
    (nextBucket : 0 < head.nextBucket) (nextBlock : 0 < head.nextBlock) :
    cfOpenWrite file blockSize = some
      { head, file
        array := fun h => if head.state = .hash ∧ h < head.hashSize then
          file.word (hashWords + h) else 0
        buckets := [], dirty := false, iobuf := replicate blockSize 0
        noHits := 0, noMiss := 0 } := by
  have opened : cfOpen file blockSize = some head := by
    unfold cfOpen
    rw [disk]
    dsimp only
    rw [if_neg used, if_pos ⟨size, hashSize, nextBucket, nextBlock⟩]
  have first : cfFirst file = false := by
    unfold cfFirst
    rw [disk]
    exact decide_eq_false used
  unfold cfOpenWrite
  rw [opened, Option.map_some]
  simp only [first, Bool.false_eq_true, true_and, if_false]

theorem Shadow.reopen (shadow : Shadow blockSize cf) :
    ∃ after, cfOpenWrite (cfClose cf) blockSize = some after ∧ Shadow blockSize after ∧
      ∀ n v, Maps after n v ↔ Maps cf n v := by
  rcases shadow.form with ⟨table, chain, form⟩ | form
  · obtain ⟨coherent, same, empty⟩ := form.coherent.flushAll
    have flushed := form.same coherent same
    have area := form.sound.area
    have noBuckets : ∀ p ∈ (flushAll cf).buckets, p.dirty = false := by
      rw [empty]
      exact fun _ mem => absurd mem not_mem_nil
    have settled : Settled (flushAll cf) := settled_same shadow.settled same area
    have state : (flushAll cf).head.state = .hash := flushed.state
    have disk : ∀ b, cf.head.firstBucket ≤ b → b < cf.head.nextBucket →
        readBucket (flushAll cf).file b = some (table.bucket b) := by
      intro b above below
      apply coherent.disk b above below
      rw [empty]
      exact fun _ mem => absurd mem not_mem_nil
    -- what the files hold after `cf_close`
    obtain ⟨headEq, arrayEq, buckets, size⟩ :
        (cfClose cf).head = some cf.head ∧
          (∀ h, h < cf.head.hashSize → (cfClose cf).word (hashWords + h) = cf.array h) ∧
          (∀ b, cf.head.firstBucket ≤ b → b < cf.head.nextBucket →
            readBucket (cfClose cf) b = some (table.bucket b)) ∧
          (cfClose cf).size ≤ cf.head.nextBucket * hashWords := by
      have size := flushed.size
      rw [same.head] at size
      unfold cfClose
      dsimp only
      cases clean : (flushAll cf).dirty with
      | false =>
        obtain ⟨head, array⟩ := settled clean noBuckets
        rw [same.head] at head array
        rw [same.array] at array
        rw [if_neg (by decide)]
        exact ⟨head, array form.state, disk, size⟩
      | true =>
        have order := Nat.mul_le_mul_right hashWords form.sound.order
        have length : ((List.range cf.head.hashSize).map cf.array).length = cf.head.hashSize := by
          rw [length_map, length_range]
        rw [if_pos rfl, writeHead, if_pos state, same.head, same.array]
        refine ⟨rfl, fun h low => ?_, fun b above below => ?_, ?_⟩
        · have put : ((flushAll cf).file.put hashWords
              ((List.range cf.head.hashSize).map cf.array)).word (hashWords + h) =
                cf.array h := by
            rw [word_put, if_pos (by omega), Nat.add_sub_cancel_left,
              getD_eq_getElem _ _ (by omega), getElem_map, getElem_range]
          exact put
        · have apart : hashWords + ((List.range cf.head.hashSize).map cf.array).length ≤
              b * hashWords := by
            rw [length]
            exact area.trans (Nat.mul_le_mul_right _ above)
          exact readBucket_put (disk b above below) (.inr apart)
        · dsimp only
          rw [size_put, length]
          omega
    have positive : 0 < cf.head.nextBucket := by
      have order := form.sound.order
      simp only [hashWords] at area
      omega
    have opened := cfOpenWrite_of_head headEq (by rw [form.state]; decide) shadow.blockSize
      form.sound.hashSize positive form.sound.positive
    have array : ∀ h, h < cf.head.hashSize →
        (if cf.head.state = .hash ∧ h < cf.head.hashSize then
          (cfClose cf).word (hashWords + h) else 0) = cf.array h := by
      intro h low
      rw [if_pos ⟨form.state, low⟩]
      exact arrayEq h low
    refine ⟨_, opened, ?_⟩
    generalize arrayNew : (fun h => if cf.head.state = .hash ∧ h < cf.head.hashSize then
      (cfClose cf).word (hashWords + h) else 0) = array' at *
    have array'' : ∀ h, h < cf.head.hashSize → array' h = cf.array h := by
      intro h low
      rw [← arrayNew]
      exact array h low
    have form' : HashForm table chain
        { head := cf.head, file := cfClose cf, array := array', buckets := [], dirty := false
          iobuf := replicate blockSize 0, noHits := 0, noMiss := 0 } := by
      refine ⟨form.state, ⟨?_, ?_, ?_, ?_, ?_, ?_⟩, ?_, size⟩
      · exact fun _ mem => absurd mem not_mem_nil
      · exact fun _ mem => absurd mem not_mem_nil
      · exact fun b above below _ => buckets b above below
      · exact nodup_nil
      · exact Nat.zero_le _
      · exact form.coherent.width
      · obtain ⟨hashSize, area, order, positive, follows, distinct, mem, slots, full, one⟩ :=
          form.sound
        refine ⟨hashSize, area, order, positive, fun h low => ?_, distinct, mem, slots, full, one⟩
        dsimp only
        rw [array'' h low]
        exact follows h low
    refine ⟨⟨.inl ⟨table, chain, form'⟩, ?_, shadow.blockSize⟩, fun n v => ?_⟩
    · intro _ _
      refine ⟨headEq, fun _ h low => ?_⟩
      dsimp only
      rw [array'' h low]
      exact arrayEq h low
    · rw [form'.maps_iff, form.maps_iff]
  · have same : flushAll cf = cf := by
      rw [flushAll, form.buckets]
      rfl
    have head : (cfClose cf).head = some cf.head := by
      unfold cfClose
      rw [same]
      dsimp only
      cases clean : cf.dirty with
      | false =>
        have settled := shadow.settled clean (by
          rw [form.buckets]
          exact fun _ mem => absurd mem not_mem_nil)
        rw [if_neg (by decide)]
        exact settled.1
      | true => rfl
    have words : ∀ i, (cfClose cf).word i = cf.file.word i := by
      intro i
      unfold cfClose
      rw [same]
      dsimp only
      split
      · rw [writeHead, if_neg (by rw [form.state]; decide)]
        rfl
      · rfl
    have opened := cfOpenWrite_of_head head (by rw [form.state]; decide) shadow.blockSize
      form.hashSize form.nextBucket form.positive
    refine ⟨_, opened, ?_⟩
    generalize (fun h => if cf.head.state = .hash ∧ h < cf.head.hashSize then
      (cfClose cf).word (hashWords + h) else 0) = array'
    have maps : ∀ n v, Maps
        { head := cf.head, file := cfClose cf, array := array', buckets := [], dirty := false
          iobuf := replicate blockSize 0, noHits := 0, noMiss := 0 } n v ↔ Maps cf n v := by
      intro n v
      unfold Maps
      dsimp only
      rw [form.state]
      dsimp only
      rw [words]
    refine ⟨⟨.inr ⟨form.state, rfl, form.hashSize, form.nextBucket, form.positive, ?_, ?_⟩, ?_,
      shadow.blockSize⟩, maps⟩
    · exact fun n v also => form.less n v ((maps n v).mp also)
    · exact form.one.congr maps
    · intro _ _
      refine ⟨head, fun hash => ?_⟩
      dsimp only at hash
      rw [form.state] at hash
      cases hash

def newHead (blockSize : Nat) : CFileHead :=
  { state := .hash, nextBlock := 1, blockSize, hashSize := 199, firstBucket := 8, nextBucket := 8
    flatBucket := 8 }

theorem cfOpenWrite_noShadow (blockSize : Nat) :
    cfOpenWrite noShadow blockSize = some
      { head := newHead blockSize
        file :=
          { noShadow.put hashWords ((List.range 199).map fun _ => 0) with
            head := some (newHead blockSize) }
        array := fun _ => 0
        buckets := [], dirty := false, iobuf := replicate blockSize 0
        noHits := 0, noMiss := 0 } := by
  have first : cfFirst noShadow = true := rfl
  have opened : cfOpen noShadow blockSize = some (newHead blockSize) := rfl
  unfold cfOpenWrite
  rw [opened, Option.map_some]
  simp only [first, Bool.true_eq_false, false_and, if_false, if_true]
  rfl

theorem shadow_new (blockSize : Nat) :
    ∃ cf, cfOpenWrite noShadow blockSize = some cf ∧ Shadow blockSize cf ∧
      ∀ n v, ¬ Maps cf n v := by
  have length : ((List.range 199).map fun _ => 0).length = 199 := by
    rw [length_map, length_range]
  have nothing : ∀ n v, ¬ (⟨fun _ => [], fun _ => 0, fun _ => 0⟩ : Table).Stored
      (newHead blockSize) n v := by
    rintro n v ⟨b, above, below, _⟩
    exact Nat.lt_irrefl _ (Nat.lt_of_le_of_lt above below)
  have form : HashForm ⟨fun _ => [], fun _ => 0, fun _ => 0⟩ (fun _ => [])
      { head := newHead blockSize
        file :=
          { noShadow.put hashWords ((List.range 199).map fun _ => 0) with
            head := some (newHead blockSize) }
        array := fun _ => 0
        buckets := [], dirty := false, iobuf := replicate blockSize 0
        noHits := 0, noMiss := 0 } := by
    refine ⟨rfl, ⟨?_, ?_, ?_, ?_, ?_, ?_⟩, ?_, ?_⟩
    · exact fun _ mem => absurd mem not_mem_nil
    · exact fun _ mem => absurd mem not_mem_nil
    · exact fun b above below _ => absurd (Nat.lt_of_le_of_lt above below) (Nat.lt_irrefl _)
    · exact nodup_nil
    · exact Nat.zero_le _
    · exact fun _ _ _ => Nat.zero_le _
    · constructor
      case hashSize => exact (by decide : 2 < 199)
      case area => exact (by decide : hashWords + 199 ≤ 8 * hashWords)
      case order => exact Nat.le_refl _
      case positive => exact Nat.zero_lt_one
      case follows => exact fun _ _ => Follows.nil
      case distinct => exact fun _ _ => nodup_nil
      case mem =>
        intro h low b
        refine iff_of_false not_mem_nil fun all => ?_
        exact Nat.lt_irrefl _ (Nat.lt_of_le_of_lt all.1 all.2.1)
      case slots => exact fun _ _ _ _ mem => absurd mem not_mem_nil
      case full => exact fun _ _ _ named => absurd rfl named
      case one =>
        constructor
        · exact fun n v _ first => absurd first (nothing n v)
        · exact fun n _ v first => absurd first (nothing n v)
    · dsimp only
      rw [size_put, length]
      exact (by decide : max 0 (hashWords + 199) ≤ 8 * hashWords)
  refine ⟨_, cfOpenWrite_noShadow blockSize, ⟨.inl ⟨_, _, form⟩, ?_, rfl⟩, fun n v maps => ?_⟩
  · intro _ _
    refine ⟨rfl, fun _ h low => ?_⟩
    dsimp only [newHead] at low
    have put : (noShadow.put hashWords ((List.range 199).map fun _ => 0)).word (hashWords + h) =
        0 := by
      rw [word_put, if_pos (by omega), Nat.add_sub_cancel_left,
        getD_eq_getElem _ _ (by omega), getElem_map]
    exact put
  · exact nothing n v ((form.maps_iff n v).mp maps)

theorem Shadow.cfCall (shadow : Shadow blockSize cf) (rmf : Nat → List Nat → List Nat)
    (call : CfCall) :
    ∃ after, cfCall rmf blockSize cf call = some after ∧ Shadow blockSize after ∧
      (∀ n v, Maps cf n v → Maps after n v) ∧
      ∀ no offset nbytes buf, call = .write no offset nbytes buf → ∃ v, Maps after no v := by
  cases call with
  | write no offset nbytes buf =>
    obtain ⟨after, run, shadow', keeps, v, maps⟩ := shadow.cfWrite rmf no offset nbytes buf
    refine ⟨after, run, shadow', keeps, fun _ _ _ _ eq => ?_⟩
    cases eq
    exact ⟨v, maps⟩
  | read no offset nbytes =>
    obtain ⟨after, read, run, shadow', same⟩ := shadow.cfRead no offset nbytes
    refine ⟨after, ?_, shadow', fun n v old => (same n v).mpr old, fun _ _ _ _ eq => ?_⟩
    · rw [Bfile.cfCall, run]
      rfl
    · cases eq
  | reopen =>
    obtain ⟨after, run, shadow', same⟩ := shadow.reopen
    refine ⟨after, run, shadow', fun n v old => (same n v).mpr old, fun _ _ _ _ eq => ?_⟩
    cases eq

/-- Calls keep what is mapped; every block written is mapped. -/
theorem Shadow.cfRun (shadow : Shadow blockSize cf) (rmf : Nat → List Nat → List Nat)
    (calls : List CfCall) :
    ∃ after, cfRun rmf blockSize calls cf = some after ∧ Shadow blockSize after ∧
      (∀ n v, Maps cf n v → Maps after n v) ∧
      ∀ no offset nbytes buf, .write no offset nbytes buf ∈ calls → ∃ v, Maps after no v := by
  induction calls generalizing cf with
  | nil =>
    exact ⟨cf, rfl, shadow, fun _ _ old => old, fun _ _ _ _ mem => absurd mem not_mem_nil⟩
  | cons call calls induction =>
    obtain ⟨middle, first, shadow', keeps, maps⟩ := shadow.cfCall rmf call
    obtain ⟨after, run, shadow'', keeps', maps'⟩ := induction shadow'
    refine ⟨after, ?_, shadow'', fun n v old => keeps' n v (keeps n v old), ?_⟩
    · rw [Bfile.cfRun, first]
      exact run
    · intro no offset nbytes buf mem
      rcases mem_cons.mp mem with eq | mem
      · obtain ⟨v, old⟩ := maps no offset nbytes buf eq.symm
        exact ⟨v, keeps' no v old⟩
      · exact maps' no offset nbytes buf mem

end

/-- Whatever is written to a new shadow file, read, closed and opened again: every block that has
been written is mapped to one shadow block, which is mapped from no other; and whatever is done
afterwards, in whichever form the map is then, it is found again, and what is not mapped is not. -/
theorem shadow_map (rmf : Nat → List Nat → List Nat) (blockSize : Nat) (calls more : List CfCall) :
    ∃ new cf after, cfOpenWrite noShadow blockSize = some new ∧
      cfRun rmf blockSize calls new = some cf ∧ cfRun rmf blockSize more cf = some after ∧
      OneToOne (Maps cf) ∧
      (∀ no offset nbytes buf, .write no offset nbytes buf ∈ calls → ∃ vno, Maps cf no vno) ∧
      (∀ no vno, Maps cf no vno →
        Maps after no vno ∧ (cfLookup after no).map Prod.snd = some (some vno)) ∧
      ∀ no, (∀ vno, ¬ Maps after no vno) → (cfLookup after no).map Prod.snd = some none := by
  obtain ⟨new, opened, shadow, _⟩ := shadow_new blockSize
  obtain ⟨cf, run, shadow', _, written⟩ := shadow.cfRun rmf calls
  obtain ⟨after, run', shadow'', keeps, _⟩ := shadow'.cfRun rmf more
  refine ⟨new, cf, after, opened, run, run', shadow'.one, written, fun no vno maps => ?_,
    fun no absent => ?_⟩
  · obtain ⟨looked, found, lookup, _, _, holds⟩ := shadow''.cfLookup no
    have still := keeps no vno maps
    rw [lookup, (holds vno).mpr still]
    exact ⟨still, rfl⟩
  · obtain ⟨looked, found, lookup, _, _, holds⟩ := shadow''.cfLookup no
    rw [lookup]
    cases found with
    | none => rfl
    | some v => exact absurd ((holds v).mp rfl) (absent v)

end Zebra.Bfile
