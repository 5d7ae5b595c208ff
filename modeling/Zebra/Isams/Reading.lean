import Zebra.Isams.Append

/-!
# Lists read back from an ISAMS

A reader holds two blocks of the file, and an item is shorter than a block: it reads what is in the
file where the list is.
-/

namespace Zebra.Isams

variable {Item Code : Type} {m : IsamcM Item Code} {codec : StreamCodec m} {bs : Nat} {bf : BFile}
  {enc : Code}

theorem bfRead_block (bf : BFile) (buf : Mem) {no dst i : Nat} (high : i < bs)
    (size : no * bs + i < bf.size) :
    bfRead bf bs no buf dst (dst + i) = bf.data (no * bs + i) := by
  rw [bfRead, memcpy_inside _ _ (by omega) (by omega), Nat.add_sub_cancel_left]

theorem bfRead_before {no dst i : Nat} {buf : Mem} (low : i < dst) :
    bfRead bf bs no buf dst i = buf i := memcpy_outside (.inl low)

/-- The buffer of a reader holds two blocks, as far as the file goes. -/
def Window (bf : BFile) (bs blockNo : Nat) (buf : Mem) : Prop :=
  ∀ i < 2 * bs, blockNo * bs + i < bf.size → buf i = bf.data (blockNo * bs + i)

/-- `isams_pp_open` reads two blocks. -/
theorem window_open (bf : BFile) (bs no : Nat) (buf : Mem) :
    Window bf bs no (bfRead bf bs (no + 1) (bfRead bf bs no buf 0) bs) := by
  intro i lt size
  by_cases first : i < bs
  · rw [bfRead_before first]
    rw [← bfRead_block bf buf first size, Nat.zero_add]
  · obtain ⟨j, rfl⟩ := Nat.exists_eq_add_of_le (not_lt.mp first)
    have next : (no + 1) * bs + j = no * bs + (bs + j) := by ring
    rw [bfRead_block bf _ (by omega) (by omega), next]

/-- Behind the first block the reader goes on to the next. -/
theorem Window.next {no : Nat} {buf : Mem} (window : Window bf bs no buf) :
    Window bf bs (no + 1) (bfRead bf bs (no + 2) (memcpy buf 0 (fun i => buf (bs + i)) bs) bs) := by
  intro i lt size
  have next : (no + 1) * bs = no * bs + bs := Nat.succ_mul _ _
  by_cases first : i < bs
  · rw [bfRead_before first, memcpy_inside _ _ (Nat.zero_le i) (by omega), Nat.sub_zero,
      window (bs + i) (by omega) (by omega)]
    congr 1
    omega
  · obtain ⟨j, rfl⟩ := Nat.exists_eq_add_of_le (not_lt.mp first)
    have next' : (no + 2) * bs + j = (no + 1) * bs + (bs + j) := by ring
    rw [bfRead_block bf _ (by omega) (by omega), next']

/-- A reader is in front of `items`. -/
structure PpAt (codec : StreamCodec m) (bs : Nat) (bf : BFile) (enc : Code) (items : List Item)
    (pp : IsamsPp Code) : Prop where
  window : Window bf bs pp.blockNo pp.buf
  offset_le : pp.blockOffset ≤ 2 * bs
  together : codec.Together enc pp.code
  number : pp.numKeys = pp.numRead + items.length
  storable : Storable codec bs enc items
  size : pp.blockNo * bs + pp.blockOffset + (encodeList m enc items).length ≤ bf.size
  holds : Holds bf.data (pp.blockNo * bs + pp.blockOffset) (encodeList m enc items)

variable {items : List Item} {pp : IsamsPp Code}

/-- Between two items the reader may go on to the next block. -/
theorem PpAt.moved (at_items : PpAt codec bs bf enc items pp)
    (behind : pp.blockOffset > bs) :
    PpAt codec bs bf enc items { pp with
      blockOffset := pp.blockOffset - bs
      blockNo := pp.blockNo + 1
      buf := bfRead bf bs (pp.blockNo + 2)
        (memcpy pp.buf 0 (fun i => pp.buf (bs + i)) bs) bs } := by
  have offset_le := at_items.offset_le
  have address : (pp.blockNo + 1) * bs + (pp.blockOffset - bs) =
      pp.blockNo * bs + pp.blockOffset := by
    rw [Nat.succ_mul]
    omega
  refine ⟨at_items.window.next, ?_, at_items.together, at_items.number, at_items.storable, ?_, ?_⟩
  · dsimp only
    omega
  · rw [address]
    exact at_items.size
  · rw [address]
    exact at_items.holds

theorem PpAt.read_item {item : Item}
    (at_items : PpAt codec bs bf enc (item :: items) pp) (le : pp.blockOffset ≤ bs) :
    ∃ code rest, m.decode pp.code (toList pp.buf pp.blockOffset (2 * bs - pp.blockOffset)) =
        some (item, code, rest) ∧
      PpAt codec bs bf (m.encode enc item).1 items { pp with
        numRead := pp.numRead + 1
        code
        blockOffset := pp.blockOffset +
          ((toList pp.buf pp.blockOffset (2 * bs - pp.blockOffset)).length - rest.length) } := by
  obtain ⟨valid, short, storable⟩ := at_items.storable
  obtain ⟨code, together, decode⟩ := codec.decode_encode at_items.together valid
  have size := at_items.size
  have holds := Holds.append.mp at_items.holds
  rw [encodeList, List.length_append] at size
  have in_buf : Holds pp.buf pp.blockOffset (m.encode enc item).2 := by
    intro i lt
    rw [← holds.1 i lt, Nat.add_assoc]
    exact at_items.window _ (by omega) (by omega)
  have src := in_buf.toList_eq (n := 2 * bs - pp.blockOffset) (by omega)
  refine ⟨code, _, by rw [src]; exact decode _, at_items.window, ?_, together, ?_, storable, ?_, ?_⟩
  all_goals
    have moved : (toList pp.buf pp.blockOffset (2 * bs - pp.blockOffset)).length -
        (toList pp.buf (pp.blockOffset + (m.encode enc item).2.length)
          (2 * bs - pp.blockOffset - (m.encode enc item).2.length)).length =
        (m.encode enc item).2.length := by
      simp only [toList, List.length_map, List.length_range]
      omega
    dsimp only
  · rw [moved]
    omega
  · have number := at_items.number
    rw [List.length_cons] at number
    push_cast at number ⊢
    omega
  · rw [moved]
    omega
  · rw [moved, ← Nat.add_assoc]
    exact holds.2

theorem PpAt.isamsPpRead_cons {item : Item}
    (at_items : PpAt codec bs bf enc (item :: items) pp) :
    ∃ pp', isamsPpRead m bs bf pp = some (some item, pp') ∧
      PpAt codec bs bf (m.encode enc item).1 items pp' := by
  have more : ¬(pp.numRead : Int) ≥ pp.numKeys := by
    have number := at_items.number
    rw [List.length_cons] at number
    push_cast at number
    omega
  by_cases behind : pp.blockOffset > bs
  · have offset_le := at_items.offset_le
    obtain ⟨code, rest, decode, next⟩ := (at_items.moved behind).read_item (by dsimp only; omega)
    refine ⟨_, ?_, next⟩
    rw [isamsPpRead, if_neg more]
    dsimp only
    rw [if_pos behind]
    dsimp only at decode ⊢
    rw [decode]
    rfl
  · obtain ⟨code, rest, decode, next⟩ := at_items.read_item (not_lt.mp behind)
    refine ⟨_, ?_, next⟩
    rw [isamsPpRead, if_neg more]
    dsimp only
    rw [if_neg behind]
    dsimp only
    rw [decode]
    rfl

theorem PpAt.readAll
    (at_items : PpAt codec bs bf enc items pp) {fuel : Nat} (enough : items.length < fuel) :
    readAll m bs bf fuel pp = some items := by
  induction items generalizing enc pp fuel with
  | nil =>
    obtain ⟨fuel, rfl⟩ := Nat.exists_eq_succ_of_ne_zero (Nat.ne_zero_of_lt enough)
    have number := at_items.number
    rw [Isams.readAll, isamsPpRead, if_pos (by simp at number; omega)]
    rfl
  | cons item items induction =>
    obtain ⟨fuel, rfl⟩ := Nat.exists_eq_succ_of_ne_zero (Nat.ne_zero_of_lt enough)
    obtain ⟨pp', read, next⟩ := at_items.isamsPpRead_cons
    rw [List.length_cons] at enough
    rw [Isams.readAll, read, Option.bind_eq_bind, Option.bind_some]
    dsimp only [Option.elim]
    rw [induction next (by omega)]
    rfl

/-- A list whose number and codes are in the file at a position is read from there. -/
theorem readAll_of_holds {pos fuel : Nat} (buf : Mem) (bs_pos : 4 ≤ bs)
    (storable : Storable codec bs m.reset items) (pos_pos : 0 < pos)
    (small : items.length < 2147483648)
    (size : pos + 4 + (encodeList m m.reset items).length ≤ bf.size)
    (holds : Holds bf.data pos (intBytes items.length ++ encodeList m m.reset items))
    (enough : items.length < fuel) :
    (isamsPpOpen m bs bf buf pos >>= readAll m bs bf fuel) = some items := by
  have split : pos / bs * bs + (pos - pos / bs * bs) = pos :=
    Nat.add_sub_cancel' (Nat.div_mul_le_self pos bs)
  have offset_lt : pos - pos / bs * bs < bs := by
    have mod := Nat.mod_lt pos (show 0 < bs by omega)
    rw [Nat.mod_eq_sub_div_mul] at mod
    exact mod
  have window := window_open bf bs (pos / bs) buf
  obtain ⟨number, codes⟩ := Holds.append.mp holds
  have number_in_buf : Holds (bfRead bf bs (pos / bs + 1) (bfRead bf bs (pos / bs) buf 0) bs)
      (pos - pos / bs * bs) (intBytes items.length) := by
    intro i lt
    rw [length_intBytes] at lt
    have at_i := number i (by rw [length_intBytes]; exact lt)
    rw [← at_i, window _ (by omega) (by omega), ← Nat.add_assoc, split]
  have opened : isamsPpOpen m bs bf buf pos = some {
      buf := bfRead bf bs (pos / bs + 1) (bfRead bf bs (pos / bs) buf 0) bs
      blockNo := pos / bs
      code := m.reset
      numRead := 0
      numKeys := items.length
      blockOffset := pos - pos / bs * bs + 4 } := by
    rw [isamsPpOpen, if_neg (by omega), if_neg (by omega)]
    simp only [Int.toNat_natCast]
    rw [bytesUInt_eq (by omega) number_in_buf, toInt_eq small]
  rw [opened]
  refine PpAt.readAll (show PpAt codec bs bf m.reset items _ from
    ⟨window, ?_, codec.start, ?_, storable, ?_, ?_⟩) enough
  · dsimp only
    omega
  · simp
  · dsimp only
    omega
  · dsimp only
    rw [← Nat.add_assoc, split]
    exact codes

end Zebra.Isams
