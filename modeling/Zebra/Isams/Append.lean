import Mathlib.Data.List.GetD
import Zebra.Isams.Store

/-!
# Lists appended to an ISAMS

Seen through the buffer of the last block, a store is one sequence of bytes, to which a merge
appends the number of items and their codes.  From there they are read back as long as the bytes
stay.
-/

namespace Zebra.Isams

open List

variable {dst n i no offset pos : Nat}

theorem memcpy_inside (mem src : Mem) (low : dst ≤ i) (high : i < dst + n) :
    memcpy mem dst src n i = src (i - dst) := if_pos ⟨low, high⟩

variable {mem src : Mem}

theorem memcpy_outside (out : i < dst ∨ dst + n ≤ i) :
    memcpy mem dst src n i = mem i := if_neg (by omega)

theorem bfWrite_inside {bf : BFile} {bs : Nat}
    (low : no * bs + offset ≤ i) (high : i < no * bs + offset + n) :
    (bfWrite bf bs no offset n src).data i = src (i - (no * bs + offset)) := by
  change memcpy (fun i => if i < bf.size then bf.data i else 0) _ src n i = _
  exact memcpy_inside _ _ low high

theorem bfWrite_outside {bf : BFile} {bs : Nat} (size : i < bf.size)
    (out : i < no * bs + offset ∨ no * bs + offset + n ≤ i) :
    (bfWrite bf bs no offset n src).data i = bf.data i := by
  change memcpy (fun i => if i < bf.size then bf.data i else 0) _ src n i = _
  exact (memcpy_outside out).trans (if_pos size)

theorem memcpy_congr {src' : Mem} (same : ∀ i < n, src i = src' i) :
    memcpy mem dst src n = memcpy mem dst src' n := by
  funext i
  by_cases inside : dst ≤ i ∧ i < dst + n
  · rw [memcpy_inside _ _ inside.1 inside.2, memcpy_inside _ _ inside.1 inside.2, same _ (by omega)]
  · rw [memcpy_outside (by omega), memcpy_outside (by omega)]

/-- `bytes` lie at `pos`. -/
def Holds (mem : Mem) (pos : Nat) (bytes : List Byte) : Prop :=
  ∀ i < bytes.length, mem (pos + i) = bytes.getD i 0

variable {front back bytes : List Byte}

theorem Holds.append :
    Holds mem pos (front ++ back) ↔ Holds mem pos front ∧ Holds mem (pos + front.length) back := by
  constructor
  · intro holds
    refine ⟨fun i lt => ?_, fun i lt => ?_⟩
    · rw [holds i (by rw [length_append]; omega), getD_append _ _ _ _ lt]
    · rw [Nat.add_assoc, holds (front.length + i) (by rw [length_append]; omega),
        getD_append_right _ _ _ _ (by omega), Nat.add_sub_cancel_left]
  · rintro ⟨front_holds, back_holds⟩ i lt
    rw [length_append] at lt
    by_cases inside : i < front.length
    · rw [front_holds i inside, getD_append _ _ _ _ inside]
    · have at_back := back_holds (i - front.length) (by omega)
      rw [Nat.add_assoc, Nat.add_sub_cancel' (by omega)] at at_back
      rw [at_back, getD_append_right _ _ _ _ (by omega)]

theorem Holds.congr {mem' : Mem} (holds : Holds mem pos bytes)
    (same : ∀ p, pos ≤ p → p < pos + bytes.length → mem' p = mem p) : Holds mem' pos bytes :=
  fun i lt => (same _ (by omega) (by omega)).trans (holds i lt)

theorem holds_toList (mem : Mem) (pos n : Nat) : Holds mem pos (toList mem pos n) := by
  intro i lt
  rw [toList, length_map, length_range] at lt
  simp [toList, getD_eq_getElem?_getD, lt]

theorem Holds.toList_eq (holds : Holds mem pos bytes)
    (le : bytes.length ≤ n) :
    toList mem pos n = bytes ++ toList mem (pos + bytes.length) (n - bytes.length) := by
  refine ext_getElem ?_ fun i lt _ => ?_
  · simp [toList]
    omega
  · rw [toList, length_map, length_range] at lt
    by_cases inside : i < bytes.length
    · have at_i := holds i inside
      simpa [toList, inside, getElem_append] using at_i
    · simp only [toList, getElem_map, getElem_range, getElem_append, inside,
        dite_false]
      congr 1
      omega

theorem length_intBytes (n : Nat) : (intBytes n).length = 4 := rfl

theorem bytesUInt_eq (small : n < 4294967296)
    (holds : Holds mem pos (intBytes n)) : bytesUInt mem pos = n := by
  have b0 := holds 0 (by rw [length_intBytes]; omega)
  have b1 := holds 1 (by rw [length_intBytes]; omega)
  have b2 := holds 2 (by rw [length_intBytes]; omega)
  have b3 := holds 3 (by rw [length_intBytes]; omega)
  simp only [intBytes, getD_cons_zero, getD_cons_succ, Nat.add_zero] at b0 b1 b2 b3
  rw [bytesUInt, b0, b1, b2, b3]
  omega

theorem toInt_eq (small : n < 2147483648) : toInt n = n := by
  rw [toInt, Nat.mod_eq_of_lt (by omega), if_pos small]

variable {Item Code : Type}

/-- Decoding a stream inverts encoding it. -/
structure StreamCodec (m : IsamcM Item Code) where
  /-- Items that occur in lists. -/
  Valid : Item → Prop
  /-- States of the two coders behind the same items. -/
  Together : Code → Code → Prop
  start : Together m.reset m.reset
  decode_encode : ∀ {enc dec item}, Together enc dec → Valid item →
    ∃ dec', Together (m.encode enc item).1 dec' ∧
      ∀ tail, m.decode dec ((m.encode enc item).2 ++ tail) = some (item, dec', tail)

def encodeList (m : IsamcM Item Code) : Code → List Item → List Byte
  | _, [] => []
  | code, item :: items => (m.encode code item).2 ++ encodeList m (m.encode code item).1 items

/-- Items of the codec, each with a code shorter than a block. -/
def Storable {m : IsamcM Item Code} (codec : StreamCodec m) (blockSize : Nat) :
    Code → List Item → Prop
  | _, [] => True
  | code, item :: items =>
    codec.Valid item ∧ (m.encode code item).2.length < blockSize ∧
      Storable codec blockSize (m.encode code item).1 items

namespace IsamsS

def base (is : IsamsS) : Nat := is.lastBlock * is.blockSize

def endPos (is : IsamsS) : Nat := is.base + is.lastOffset

/-- A byte of the store, from the file or from the buffer. -/
def byteAt (is : IsamsS) : Mem :=
  fun p => if p < is.base then is.bf.data p else is.mergeBuf (p - is.base)

theorem byteAt_file {is : IsamsS} {p : Nat} (lt : p < is.base) : is.byteAt p = is.bf.data p :=
  if_pos lt

theorem byteAt_buf {is : IsamsS} {p : Nat} (ge : is.base ≤ p) :
    is.byteAt p = is.mergeBuf (p - is.base) := if_neg (Nat.not_lt.mpr ge)

/-- The store is open, with at most `limit` bytes in the buffer, and its bytes up to `oldEnd` are in
the file as they are in the buffer. -/
structure SoundTo (limit oldEnd : Nat) (is : IsamsS) : Prop where
  size_ge : 128 ≤ is.blockSize
  block_pos : is.blockSize ≤ is.base
  offset_le : is.lastOffset ≤ limit
  backed : ∀ p, is.blockSize ≤ p → p < is.base → p < is.bf.size
  old_le : oldEnd ≤ is.base + is.blockSize
  old_end : oldEnd ≤ is.endPos
  kept : ∀ p, is.base ≤ p → p < oldEnd → p < is.bf.size ∧ is.bf.data p = is.mergeBuf (p - is.base)

def Sound (oldEnd : Nat) (is : IsamsS) : Prop := is.SoundTo is.blockSize oldEnd

end IsamsS

open IsamsS

variable {is is' is'' : IsamsS} {oldEnd : Nat}

/-- `bytes` have been appended. -/
structure Appends (oldEnd : Nat) (is is' : IsamsS) (bytes : List Byte) : Prop where
  sound : is'.Sound oldEnd
  size : is'.blockSize = is.blockSize
  old : is'.headOld = is.headOld
  endPos : is'.endPos = is.endPos + bytes.length
  before : ∀ p, is.blockSize ≤ p → p < is.endPos → is'.byteAt p = is.byteAt p
  bytes : Holds is'.byteAt is.endPos bytes

theorem IsamsS.SoundTo.size_le_endPos {limit : Nat} (sound : is.SoundTo limit oldEnd) :
    is.blockSize ≤ is.endPos :=
  sound.block_pos.trans (Nat.le_add_right _ _)

theorem Appends.trans (sound : is.Sound oldEnd)
    (first : Appends oldEnd is is' front) (second : Appends oldEnd is' is'' back) :
    Appends oldEnd is is'' (front ++ back) where
  sound := second.sound
  size := second.size.trans first.size
  old := second.old.trans first.old
  endPos := by rw [second.endPos, first.endPos, length_append, Nat.add_assoc]
  before p low high := by
    rw [second.before p (by rw [first.size]; exact low) (by rw [first.endPos]; omega),
      first.before p low high]
  bytes := by
    have size_le := sound.size_le_endPos
    refine Holds.append.mpr ⟨first.bytes.congr fun p low high => ?_, ?_⟩
    · refine second.before p ?_ (by rw [first.endPos]; exact high)
      rw [first.size]
      exact size_le.trans low
    · rw [← first.endPos]
      exact second.bytes

/-- What has been put behind the bytes in the buffer. -/
def fill (is : IsamsS) (bytes : List Byte) : IsamsS :=
  { is with
    mergeBuf := memcpy is.mergeBuf is.lastOffset (ofList bytes) bytes.length
    lastOffset := is.lastOffset + bytes.length }

theorem fill_spec (sound : is.Sound oldEnd)
    (short : bytes.length ≤ is.blockSize) :
    (fill is bytes).SoundTo (2 * is.blockSize) oldEnd ∧
      (fill is bytes).endPos = is.endPos + bytes.length ∧
      (∀ p < is.endPos, (fill is bytes).byteAt p = is.byteAt p) ∧
      Holds (fill is bytes).byteAt is.endPos bytes := by
  have end_eq : is.endPos = is.base + is.lastOffset := rfl
  have base_eq : (fill is bytes).base = is.base := rfl
  have new_end : (fill is bytes).endPos = is.endPos + bytes.length := by
    rw [endPos, base_eq, end_eq, Nat.add_assoc]
    rfl
  have offset_le : is.lastOffset ≤ is.blockSize := sound.offset_le
  have old_end := sound.old_end
  refine ⟨⟨sound.size_ge, sound.block_pos, ?_, sound.backed, sound.old_le, ?_,
    fun p low high => ?_⟩,
    new_end, fun p high => ?_, fun i lt => ?_⟩
  · change is.lastOffset + bytes.length ≤ 2 * is.blockSize
    omega
  · rw [new_end]
    omega
  · have low : is.base ≤ p := low
    obtain ⟨size, same⟩ := sound.kept p low high
    exact ⟨size, same.trans (memcpy_outside (by omega)).symm⟩
  · simp only [byteAt, base_eq]
    split
    · rfl
    · exact memcpy_outside (by omega)
  · simp only [byteAt, base_eq]
    rw [if_neg (by omega)]
    refine (memcpy_inside is.mergeBuf (ofList bytes) (by omega) (by omega)).trans ?_
    rw [ofList]
    congr 1
    omega

theorem writeFull_spec (sound : is.SoundTo (2 * is.blockSize) oldEnd) :
    (writeFull is).Sound oldEnd ∧ (writeFull is).blockSize = is.blockSize ∧
      (writeFull is).headOld = is.headOld ∧ (writeFull is).endPos = is.endPos ∧
      ∀ p, is.blockSize ≤ p → p < is.endPos → (writeFull is).byteAt p = is.byteAt p := by
  have offset_le := sound.offset_le
  by_cases full : is.lastOffset > is.blockSize
  · have end_eq : is.endPos = is.base + is.lastOffset := rfl
    have base_eq : is.base = is.lastBlock * is.blockSize + 0 := rfl
    have block_pos := sound.block_pos
    have old_le := sound.old_le
    have written : writeFull is = { is with
        bf := bfWrite is.bf is.blockSize is.lastBlock 0 is.blockSize is.mergeBuf
        lastBlock := is.lastBlock + 1
        lastOffset := is.lastOffset - is.blockSize
        mergeBuf := memcpy is.mergeBuf 0 (fun i => is.mergeBuf (is.blockSize + i))
          (is.lastOffset - is.blockSize) } := if_pos full
    have new_base : (writeFull is).base = is.base + is.blockSize := by
      rw [written]
      exact Nat.succ_mul _ _
    have new_end : (writeFull is).endPos = is.endPos := by
      rw [endPos, new_base, written]
      dsimp only
      omega
    have in_file (p : Nat) (low : is.blockSize ≤ p) (high : p < is.base + is.blockSize) :
        p < (writeFull is).bf.size ∧ (writeFull is).bf.data p = is.byteAt p := by
      rw [written, byteAt]
      by_cases inside : p < is.base
      · have backed := sound.backed p low inside
        rw [if_pos inside]
        refine ⟨lt_of_lt_of_le backed (le_max_left _ _), ?_⟩
        exact bfWrite_outside backed (.inl (by omega))
      · rw [if_neg inside]
        refine ⟨lt_of_lt_of_le ?_ (le_max_right _ _), ?_⟩
        · omega
        · exact (bfWrite_inside (by omega) (by omega)).trans (by rw [← base_eq])
    refine ⟨⟨?_, ?_, ?_, fun p low high => ?_, ?_, ?_, fun p low high => ?_⟩, ?_, ?_, new_end,
      fun p low high => ?_⟩
    · rw [written]
      exact sound.size_ge
    · rw [new_base, written]
      exact Nat.le_add_left _ _
    · rw [written]
      dsimp only
      omega
    · rw [written] at low
      exact (in_file p low (by rw [← new_base]; exact high)).1
    · rw [new_base, written]
      dsimp only
      omega
    · rw [new_end]
      exact sound.old_end
    · rw [new_base] at low
      omega
    · rw [written]
    · rw [written]
    · by_cases inside : p < (writeFull is).base
      · rw [byteAt, if_pos inside]
        exact (in_file p low (by rw [← new_base]; exact inside)).2
      · rw [byteAt, if_neg inside, byteAt, if_neg (by omega), written]
        have moved := memcpy_inside is.mergeBuf (fun i => is.mergeBuf (is.blockSize + i))
          (Nat.zero_le (p - (writeFull is).base))
          (show p - (writeFull is).base < 0 + (is.lastOffset - is.blockSize) by omega)
        rw [written] at moved
        refine moved.trans ?_
        rw [← written, new_base]
        congr 1
        omega
  · have same : writeFull is = is := if_neg full
    rw [same]
    refine ⟨⟨sound.size_ge, sound.block_pos, by omega, sound.backed, sound.old_le, sound.old_end,
      sound.kept⟩, rfl, rfl, rfl, fun _ _ _ => rfl⟩

/-- Bytes are put into the buffer, and a full block is written. -/
theorem appends_fill (sound : is.Sound oldEnd) (bytes : List Byte)
    (short : bytes.length ≤ is.blockSize) :
      Appends oldEnd is (writeFull (fill is bytes)) bytes := by
  obtain ⟨filled, end_eq, before, holds⟩ := fill_spec sound short
  obtain ⟨sound', size_eq, old_eq, end_eq', same⟩ :=
    writeFull_spec (show (fill is bytes).SoundTo (2 * (fill is bytes).blockSize) oldEnd from filled)
  have size_le := sound.size_le_endPos
  refine ⟨sound', size_eq, old_eq, end_eq'.trans end_eq, fun p low high => ?_,
    holds.congr fun p low high => ?_⟩
  · rw [same p low (by omega), before p high]
  · exact same p (size_le.trans low) (by omega)

theorem appends_putItems {m : IsamcM Item Code} {codec : StreamCodec m} {items : List Item}
    {code : Code} (sound : is.Sound oldEnd) (storable : Storable codec is.blockSize code items) :
    Appends oldEnd is (items.foldl (putItem m) (is, code)).1 (encodeList m code items) := by
  induction items generalizing is code with
  | nil => exact ⟨sound, rfl, rfl, rfl, fun _ _ _ => rfl, fun i lt => absurd lt (Nat.not_lt_zero i)⟩
  | cons item items induction =>
    obtain ⟨-, short, rest⟩ := storable
    have first := appends_fill sound (m.encode code item).2 short.le
    have step : putItem m (is, code) item =
        (writeFull (fill is (m.encode code item).2), (m.encode code item).1) := rfl
    rw [foldl_cons, step, encodeList]
    exact first.trans sound (induction first.sound (first.size ▸ rest))

/-- `bytes` have taken the place of others behind `pos`. -/
structure Patched (oldEnd pos : Nat) (is is' : IsamsS) (bytes : List Byte) : Prop where
  sound : is'.Sound oldEnd
  size : is'.blockSize = is.blockSize
  old : is'.headOld = is.headOld
  endPos : is'.endPos = is.endPos
  others : ∀ p, is.blockSize ≤ p → p < is.endPos → p < pos ∨ pos + bytes.length ≤ p →
    is'.byteAt p = is.byteAt p
  bytes : Holds is'.byteAt pos bytes

/-- Where the file is written behind what is to be kept, and in front of the last block. -/
theorem patched_file (sound : is.Sound oldEnd) (bytes : List Byte)
    (pos_eq : no * is.blockSize + offset = pos) (low : is.blockSize ≤ pos) (old_le : oldEnd ≤ pos)
    (before : pos + bytes.length ≤ is.base) :
    Patched oldEnd pos is
      { is with bf := bfWrite is.bf is.blockSize no offset bytes.length (ofList bytes) } bytes := by
  subst pos_eq
  have grown (p : Nat) (lt : p < is.bf.size) :
      p < (bfWrite is.bf is.blockSize no offset bytes.length (ofList bytes)).size :=
    lt_of_lt_of_le lt (le_max_left _ _)
  have byteAt_eq (p : Nat) : byteAt { is with
      bf := bfWrite is.bf is.blockSize no offset bytes.length (ofList bytes) } p =
      if p < is.base then (bfWrite is.bf is.blockSize no offset bytes.length (ofList bytes)).data p
      else is.mergeBuf (p - is.base) := rfl
  refine ⟨⟨sound.size_ge, sound.block_pos, sound.offset_le, fun p low high =>
    grown p (sound.backed p low high), sound.old_le, sound.old_end, fun p low' high => ?_⟩,
      rfl, rfl,
    rfl, fun p low' high out => ?_, fun i lt => ?_⟩
  · have low' : is.base ≤ p := low'
    omega
  · by_cases inside : p < is.base
    · rw [byteAt_eq, if_pos inside, byteAt_file inside]
      exact bfWrite_outside (sound.backed p low' inside) out
    · rw [byteAt_eq, if_neg inside, byteAt_buf (not_lt.mp inside)]
  · rw [byteAt_eq, if_pos (by omega)]
    refine (bfWrite_inside (by omega) (by omega)).trans ?_
    rw [ofList, Nat.add_sub_cancel_left]

/-- Where the buffer is written behind what is to be kept. -/
theorem patched_buf (sound : is.Sound oldEnd) (bytes : List Byte)
    (pos_eq : is.base + offset = pos) (old_le : oldEnd ≤ pos) :
    Patched oldEnd pos is
      { is with mergeBuf := memcpy is.mergeBuf offset (ofList bytes) bytes.length } bytes := by
  subst pos_eq
  have byteAt_eq (p : Nat) : byteAt { is with
      mergeBuf := memcpy is.mergeBuf offset (ofList bytes) bytes.length } p =
      if p < is.base then is.bf.data p
      else memcpy is.mergeBuf offset (ofList bytes) bytes.length (p - is.base) := rfl
  refine ⟨⟨sound.size_ge, sound.block_pos, sound.offset_le, sound.backed, sound.old_le,
    sound.old_end, fun p low high => ?_⟩, rfl, rfl, rfl, fun p low high out => ?_, fun i lt => ?_⟩
  · have low : is.base ≤ p := low
    obtain ⟨size, same⟩ := sound.kept p low high
    exact ⟨size, same.trans (memcpy_outside (.inl (by omega))).symm⟩
  · by_cases inside : p < is.base
    · rw [byteAt_eq, if_pos inside, byteAt_file inside]
    · rw [byteAt_eq, if_neg inside, byteAt_buf (not_lt.mp inside)]
      exact memcpy_outside (by omega)
  · have address : is.base + offset + i - is.base = offset + i := by omega
    rw [byteAt_eq, if_neg (by omega), address,
      memcpy_inside _ _ (by omega) (by omega), ofList,
      Nat.add_sub_cancel_left]

theorem Patched.trans (first : Patched oldEnd pos is is' front)
    (second : Patched oldEnd (pos + front.length) is' is'' back) (low : is.blockSize ≤ pos)
    (inside : pos + front.length ≤ is.endPos) :
    Patched oldEnd pos is is'' (front ++ back) where
  sound := second.sound
  size := second.size.trans first.size
  old := second.old.trans first.old
  endPos := second.endPos.trans first.endPos
  others p low high out := by
    rw [length_append] at out
    rw [second.others p (by rw [first.size]; exact low) (by rw [first.endPos]; exact high)
      (by omega), first.others p low high (by omega)]
  bytes := by
    refine Holds.append.mpr ⟨first.bytes.congr fun p low' high => ?_, second.bytes⟩
    exact second.others p (by rw [first.size]; exact low.trans low')
      (by rw [first.endPos]; omega) (.inl high)

/-- The number of items when it lies over the end of a block: its first bytes go to the file, the
others to the buffer. -/
theorem patched_straddling (sound : is.Sound oldEnd) {firstBlock firstOffset count : Nat}
    (base_eq : is.base = firstBlock * is.blockSize + is.blockSize)
    (offset_le : firstOffset ≤ is.blockSize) (straddles : firstOffset + 4 > is.blockSize)
    (low : is.blockSize ≤ firstBlock * is.blockSize)
    (old_le : oldEnd ≤ firstBlock * is.blockSize + firstOffset)
    (before : firstBlock * is.blockSize + firstOffset + 4 ≤ is.endPos) :
    Patched oldEnd (firstBlock * is.blockSize + firstOffset) is
      { is with
        bf :=
          if firstOffset + 4 - is.blockSize < 4 then
            bfWrite is.bf is.blockSize firstBlock firstOffset (4 - (firstOffset + 4 - is.blockSize))
              (ofList (intBytes count))
          else is.bf
        mergeBuf := memcpy is.mergeBuf 0
          (fun i => ofList (intBytes count) (4 - (firstOffset + 4 - is.blockSize) + i))
          (firstOffset + 4 - is.blockSize) }
      (intBytes count) := by
  obtain ⟨front, front_eq⟩ : ∃ front, is.blockSize - firstOffset = front := ⟨_, rfl⟩
  have gap_eq : firstOffset + 4 - is.blockSize = 4 - front := by omega
  have front_le : front < 4 := by omega
  have rest : 4 - (4 - front) = front := by omega
  have length_take : ((intBytes count).take front).length = front := by
    rw [length_take, length_intBytes]
    omega
  have length_drop : ((intBytes count).drop front).length = 4 - front := by
    rw [length_drop, length_intBytes]
  rw [gap_eq, rest]
  -- the bytes behind the end of the block
  have behind : memcpy is.mergeBuf 0 (ofList ((intBytes count).drop front))
      ((intBytes count).drop front).length =
      memcpy is.mergeBuf 0 (fun i => ofList (intBytes count) (front + i)) (4 - front) := by
    rw [length_drop]
    exact memcpy_congr fun i _ => by simp [ofList, getD_eq_getElem?_getD]
  by_cases whole : front = 0
  · subst whole
    have patched := patched_buf sound ((intBytes count).drop 0)
      (show is.base + 0 = firstBlock * is.blockSize + firstOffset by omega) old_le
    rw [behind] at patched
    rw [if_neg (by omega)]
    exact patched
  · have first := patched_file sound ((intBytes count).take front)
      (show firstBlock * is.blockSize + firstOffset = _ from rfl) (by omega) old_le
      (by rw [length_take]; omega)
    have second := patched_buf first.sound ((intBytes count).drop front)
      (show is.base + 0 =
        firstBlock * is.blockSize + firstOffset + ((intBytes count).take front).length by
        rw [length_take]; omega) (by omega)
    have patched : Patched oldEnd (firstBlock * is.blockSize + firstOffset) is
        { is with
          bf := bfWrite is.bf is.blockSize firstBlock firstOffset
            ((intBytes count).take front).length
            (ofList ((intBytes count).take front))
          mergeBuf := memcpy is.mergeBuf 0 (ofList ((intBytes count).drop front))
            ((intBytes count).drop front).length }
        ((intBytes count).take front ++ (intBytes count).drop front) :=
      first.trans second (by omega) (by rw [length_take]; omega)
    rw [take_append_drop, behind, length_take] at patched
    rw [if_pos (by omega)]
    have source : bfWrite is.bf is.blockSize firstBlock firstOffset front
        (ofList ((intBytes count).take front)) =
        bfWrite is.bf is.blockSize firstBlock firstOffset front (ofList (intBytes count)) := by
      rw [bfWrite, bfWrite]
      congr 1
      refine memcpy_congr fun i lt => ?_
      simp [ofList, getD_eq_getElem?_getD, lt]
    rw [← source]
    exact patched

/-- The number of items comes to where the list begins, wherever the blocks end. -/
theorem patched_putCount (sound : is.Sound oldEnd) (firstBlock firstOffset count : Nat)
    (low : is.blockSize ≤ firstBlock * is.blockSize) (offset_le : firstOffset ≤ is.blockSize)
    (old_le : oldEnd ≤ firstBlock * is.blockSize + firstOffset)
    (before : firstBlock * is.blockSize + firstOffset + 4 ≤ is.endPos) :
    Patched oldEnd (firstBlock * is.blockSize + firstOffset) is
      (putCount is firstBlock firstOffset count) (intBytes count) := by
  have size_ge := sound.size_ge
  have last_le : is.lastOffset ≤ is.blockSize := sound.offset_le
  have end_eq : is.endPos = is.lastBlock * is.blockSize + is.lastOffset := rfl
  have blocks (k : Nat) : (k + 1) * is.blockSize = k * is.blockSize + is.blockSize :=
    Nat.succ_mul _ _
  rw [putCount]
  split
  · rename_i same
    exact patched_buf sound (intBytes count) (by rw [base, ← same]) old_le
  · rename_i differ
    split
    · rename_i next
      have base_eq : is.base = firstBlock * is.blockSize + is.blockSize := by
        rw [base, ← next, blocks]
      split
      · rename_i straddles
        exact patched_straddling sound base_eq offset_le straddles low old_le before
      · exact patched_file sound (intBytes count) rfl (by omega) old_le
          (by rw [length_intBytes]; omega)
    · rename_i far
      have below : firstBlock + 2 ≤ is.lastBlock := by
        by_contra above
        have le : (is.lastBlock + 1) * is.blockSize ≤ firstBlock * is.blockSize :=
          Nat.mul_le_mul_right _ (by omega)
        rw [blocks] at le
        omega
      have le : (firstBlock + 2) * is.blockSize ≤ is.base := Nat.mul_le_mul_right _ below
      rw [show firstBlock + 2 = firstBlock + 1 + 1 from rfl, blocks, blocks] at le
      exact patched_file sound (intBytes count) rfl (by omega) old_le
        (by rw [length_intBytes]; omega)

/-- `isams_merge` appends the number of items and their codes. -/
theorem appends_isamsMerge {m : IsamcM Item Code} {codec : StreamCodec m} {items : List Item}
    (sound : is.Sound oldEnd) (storable : Storable codec is.blockSize m.reset items) :
    Appends oldEnd is (isamsMerge m is items).2
      (intBytes items.length ++ encodeList m m.reset items) := by
  -- for the number there is room, with anything in it
  have room : { is with lastOffset := is.lastOffset + 4 } =
      fill is (toList is.mergeBuf is.lastOffset 4) := by
    rw [fill]
    congr 1
    funext i
    by_cases inside : is.lastOffset ≤ i ∧ i < is.lastOffset + 4
    · have holds := holds_toList is.mergeBuf is.lastOffset 4 (i - is.lastOffset)
        (by simp [toList]; omega)
      rw [Nat.add_sub_cancel' inside.1] at holds
      rw [memcpy_inside _ _ inside.1 (by simp [toList]; omega)]
      exact holds
    · rw [memcpy_outside (by simp [toList]; omega)]
  have size_ge := sound.size_ge
  have started := appends_fill sound (toList is.mergeBuf is.lastOffset 4) (by simp [toList]; omega)
  have filled := started.trans sound
    (appends_putItems started.sound (started.size.symm ▸ storable))
  rw [← room] at filled
  have length_room : (toList is.mergeBuf is.lastOffset 4).length = 4 := by simp [toList]
  have end_eq : is.lastBlock * is.blockSize + is.lastOffset = is.endPos := rfl
  have block_pos := sound.block_pos
  have size_le := sound.size_le_endPos
  have end_eq' := filled.endPos
  rw [length_append, length_room] at end_eq'
  have counted := patched_putCount filled.sound is.lastBlock is.lastOffset items.length
    (by rw [filled.size]; exact block_pos) (by rw [filled.size]; exact sound.offset_le)
    (by rw [filled.size, end_eq]; exact sound.old_end)
    (by rw [filled.size, end_eq, end_eq']; omega)
  rw [filled.size, end_eq] at counted
  refine ⟨counted.sound, counted.size.trans filled.size, counted.old.trans filled.old, ?_,
    fun p low high => ?_, Holds.append.mpr ⟨counted.bytes, ?_⟩⟩
  · refine counted.endPos.trans (end_eq'.trans ?_)
    rw [length_append, length_intBytes]
  · rw [← filled.before p low high]
    exact counted.others p (by rw [filled.size]; exact low) (by omega) (.inl high)
  · have codes := (Holds.append.mp filled.bytes).2
    rw [length_room] at codes
    refine codes.congr fun p low high => ?_
    exact counted.others p (by rw [filled.size]; omega) (by omega) (.inr low)

end Zebra.Isams
