import Zebra.Isams.Reading

/-!
# Runs of an ISAMS

A store is opened for writing, lists are merged into it, and it is closed, again and again.  What is
in the last block is not read when the store is opened, and is lost when more is merged.
-/

namespace Zebra.Isams

open IsamsS

variable {Item Code : Type} {m : IsamcM Item Code} {codec : StreamCodec m} {bs : Nat}

inductive Store where
  | closed (bf : BFile)
  | opened (is : IsamsS)

def Store.file : Store → BFile
  | .closed bf => bf
  | .opened is => is.bf

/-- A store comes about by calls whose merges meet a condition; with the positions returned and the
lists that were merged. -/
inductive Run (codec : StreamCodec m) (bs : Nat) (cond : IsamsS → List Item → Prop) :
    Store → List (Int × List Item) → Prop
  | new (data : Mem) : Run codec bs cond (.closed ⟨0, data⟩) []
  | isamsOpen {bf : BFile} {lists : List (Int × List Item)}
      (before : Run codec bs cond (.closed bf) lists) :
      Run codec bs cond (.opened (isamsOpen bs bf)) lists
  | merge {is : IsamsS} {lists : List (Int × List Item)} {items : List Item}
      (before : Run codec bs cond (.opened is) lists) (storable : Storable codec bs m.reset items)
      (meets : cond is items) :
      Run codec bs cond (.opened (isamsMerge m is items).2)
        (lists ++ [((isamsMerge m is items).1, items)])
  | isamsClose {is : IsamsS} {lists : List (Int × List Item)}
      (before : Run codec bs cond (.opened is) lists) :
      Run codec bs cond (.closed (isamsClose is)) lists

/-- Reading from a position gives the items and then the end. -/
def ReadsBack (m : IsamcM Item Code) (bs : Nat) (bf : BFile) (pos : Int)
    (items : List Item) : Prop :=
  ∀ (buf : Mem) (fuel : Nat), items.length < fuel →
    (isamsPpOpen m bs bf buf pos >>= readAll m bs bf fuel) = some items

/-- Bytes that a list takes: for the number of items and for their codes. -/
def listSize (m : IsamcM Item Code) (items : List Item) : Nat :=
  4 + (encodeList m m.reset items).length

/-- A merge into a store whose last block has only zeros in front of `last_offset`, like `merge_buf`
when the store has just been opened; and all positions and numbers are those of an `int`. -/
structure Proper (m : IsamcM Item Code) (is : IsamsS) (items : List Item) : Prop where
  tail : (is.lastOffset, is.lastBlock) = is.headOld →
    ∀ i < is.lastOffset, is.bf.data (is.base + i) = is.mergeBuf i
  positions : is.endPos + listSize m items < 2147483648
  number : items.length < 2147483648

/-- The bytes of a list are in the file: the store is closed, or had them when it was opened, or has
written the block in which they end. -/
def InFile (m : IsamcM Item Code) (store : Store) (pos : Int) (items : List Item) : Prop :=
  match store with
  | .closed _ => True
  | .opened is =>
    pos + listSize m items ≤ is.base ∨
      pos + listSize m items ≤ is.headOld.2 * is.blockSize + is.headOld.1

/-- A list lies in front of `stop`. -/
def ListAt (codec : StreamCodec m) (bs : Nat) (mem : Mem) (stop : Nat) (list : Int × List Item) :
    Prop :=
  ∃ start : Nat, list.1 = start ∧ bs ≤ start ∧ start + listSize m list.2 ≤ stop ∧
    list.2.length < 2147483648 ∧ Storable codec bs m.reset list.2 ∧
    Holds mem start (intBytes list.2.length ++ encodeList m m.reset list.2)

theorem ListAt.mono {mem mem' : Mem} {stop stop' : Nat} {list : Int × List Item}
    (list_at : ListAt codec bs mem stop list) (le : stop ≤ stop')
    (same : ∀ p, bs ≤ p → p < stop → mem' p = mem p) : ListAt codec bs mem' stop' list := by
  obtain ⟨start, pos_eq, low, inside, number, storable, holds⟩ := list_at
  refine ⟨start, pos_eq, low, inside.trans le, number, storable, holds.congr fun p low' high => ?_⟩
  rw [List.length_append, length_intBytes] at high
  exact same p (low.trans low') (lt_of_lt_of_le high inside)

theorem readsBack_of_holds {bf : BFile} {start : Nat} {items : List Item} (bs_ge : 128 ≤ bs)
    (low : bs ≤ start) (number : items.length < 2147483648)
    (storable : Storable codec bs m.reset items)
    (bytes : ∀ p, start ≤ p → p < start + listSize m items → p < bf.size)
    (holds : Holds bf.data start (intBytes items.length ++ encodeList m m.reset items)) :
    ReadsBack m bs bf start items := by
  intro buf fuel enough
  have length : listSize m items = 4 + (encodeList m m.reset items).length := rfl
  have last := bytes (start + listSize m items - 1) (by omega) (by omega)
  exact readAll_of_holds buf (by omega) storable (by omega) number (by omega) holds enough

structure Closed (codec : StreamCodec m) (bs : Nat) (bf : BFile) (lists : List (Int × List Item)) :
    Prop where
  block_pos : bs ≤ (isamsOpen bs bf).base
  offset_le : (isamsOpen bs bf).lastOffset ≤ bs
  small : (isamsOpen bs bf).endPos < 2147483648
  backed : ∀ p, bs ≤ p → p < (isamsOpen bs bf).endPos → p < bf.size
  lists : ∀ list ∈ lists, ListAt codec bs bf.data (isamsOpen bs bf).endPos list

/-- A store into which lists may be merged. -/
structure Mergeable (codec : StreamCodec m) (bs : Nat) (is : IsamsS)
    (lists : List (Int × List Item)) : Prop where
  size_eq : is.blockSize = bs
  sound : is.Sound (is.headOld.2 * bs + is.headOld.1)
  small : is.endPos < 2147483648
  lists : ∀ list ∈ lists, ListAt codec bs is.byteAt is.endPos list

/-- A store that has been opened, and into which nothing or something has been merged. -/
inductive Opened (codec : StreamCodec m) (bs : Nat) : IsamsS → List (Int × List Item) → Prop
  | fresh {bf : BFile} {lists : List (Int × List Item)} (closed : Closed codec bs bf lists) :
      Opened codec bs (isamsOpen bs bf) lists
  | merged {is : IsamsS} {lists : List (Int × List Item)} (mergeable : Mergeable codec bs is lists)
      (grown : is.headOld.2 * bs + is.headOld.1 < is.endPos) : Opened codec bs is lists

theorem headOld_isamsOpen (bs : Nat) (bf : BFile) :
    (isamsOpen bs bf).headOld.2 * bs + (isamsOpen bs bf).headOld.1 = (isamsOpen bs bf).endPos := rfl

variable {lists : List (Int × List Item)}

/-- When the last block has only zeros, nothing is lost by not reading it. -/
theorem Closed.mergeable {bf : BFile} {items : List Item}
    (closed : Closed codec bs bf lists) (bs_ge : 128 ≤ bs)
    (proper : Proper m (isamsOpen bs bf) items) : Mergeable codec bs (isamsOpen bs bf) lists := by
  have end_eq : (isamsOpen bs bf).endPos = (isamsOpen bs bf).base + (isamsOpen bs bf).lastOffset :=
    rfl
  have offset_le := closed.offset_le
  have kept (p : Nat) (low : (isamsOpen bs bf).base ≤ p) (high : p < (isamsOpen bs bf).endPos) :
      bf.data p = (isamsOpen bs bf).mergeBuf (p - (isamsOpen bs bf).base) := by
    have tail := proper.tail rfl (p - (isamsOpen bs bf).base) (by omega)
    rwa [Nat.add_sub_cancel' low] at tail
  refine ⟨rfl, ⟨bs_ge, closed.block_pos, offset_le, fun p low high => ?_, ?_, le_rfl,
    fun p low high => ⟨?_, kept p low high⟩⟩, closed.small, fun list mem => ?_⟩
  · exact closed.backed p low (by omega)
  · rw [headOld_isamsOpen, end_eq]
    exact Nat.add_le_add_left offset_le _
  · exact closed.backed p (closed.block_pos.trans low) high
  · refine (closed.lists list mem).mono le_rfl fun p low high => ?_
    by_cases inside : p < (isamsOpen bs bf).base
    · exact byteAt_file inside
    · rw [byteAt_buf (not_lt.mp inside)]
      exact (kept p (not_lt.mp inside) high).symm

theorem Mergeable.merge {is : IsamsS} {lists : List (Int × List Item)} {items : List Item}
    (mergeable : Mergeable codec bs is lists) (storable : Storable codec bs m.reset items)
    (proper : Proper m is items) :
    Mergeable codec bs (isamsMerge m is items).2 (lists ++ [((isamsMerge m is items).1, items)]) ∧
      is.endPos < (isamsMerge m is items).2.endPos ∧
      (isamsMerge m is items).2.headOld = is.headOld := by
  have size_eq := mergeable.size_eq
  have appends := appends_isamsMerge mergeable.sound (size_eq.symm ▸ storable)
  have small := proper.positions
  have size : (intBytes items.length ++ encodeList m m.reset items).length = listSize m items := by
    rw [List.length_append, length_intBytes, listSize]
  have end_eq := appends.endPos
  rw [size] at end_eq
  have size_pos : 4 ≤ listSize m items := Nat.le_add_right _ _
  have pos_eq : (isamsMerge m is items).1 = is.endPos := by
    change toInt is.endPos = _
    exact toInt_eq (by omega)
  refine ⟨⟨appends.size.trans size_eq, ?_, by omega, ?_⟩, by omega, appends.old⟩
  · rw [appends.old]
    exact appends.sound
  · intro list mem
    rcases List.mem_append.mp mem with mem | mem
    · refine (mergeable.lists list mem).mono (by omega) fun p low high => ?_
      exact appends.before p (by rw [size_eq]; exact low) high
    · rw [List.mem_singleton.mp mem]
      refine ⟨is.endPos, pos_eq, ?_, end_eq.ge, proper.number, storable, appends.bytes⟩
      rw [← size_eq]
      exact mergeable.sound.size_le_endPos

/-- The `int` numbers at the beginning of a file. -/
theorem isamsOpen_head {bf : BFile} {offset block : Nat} (offset_small : offset < 4294967296)
    (block_small : block < 4294967296) (size : 8 ≤ bf.size)
    (holds : Holds bf.data 0 (intBytes offset ++ intBytes block)) :
    (isamsOpen bs bf).lastOffset = offset ∧ (isamsOpen bs bf).lastBlock = block := by
  obtain ⟨first, second⟩ := Holds.append.mp holds
  rw [length_intBytes, Nat.zero_add] at second
  rw [isamsOpen, if_pos size]
  exact ⟨bytesUInt_eq offset_small first, bytesUInt_eq block_small second⟩

/-- `isams_close` leaves every byte in the file. -/
theorem Mergeable.isamsClose {is : IsamsS}
    (mergeable : Mergeable codec bs is lists) (bs_ge : 128 ≤ bs)
    (grown : is.headOld.2 * bs + is.headOld.1 < is.endPos) :
    Closed codec bs (isamsClose is) lists := by
  obtain ⟨size_eq, sound, small, lists_at⟩ := mergeable
  subst size_eq
  have end_eq : is.endPos = is.lastBlock * is.blockSize + is.lastOffset := rfl
  have base_eq : is.base = is.lastBlock * is.blockSize + 0 := rfl
  have block_pos := sound.block_pos
  have changed : (is.lastOffset, is.lastBlock) ≠ is.headOld := by
    intro same
    rw [← same] at grown
    exact absurd grown (by dsimp only; omega)
  have block_le : is.lastBlock * 1 ≤ is.base := Nat.mul_le_mul_left _ (by omega)
  -- the file with the last block
  obtain ⟨bf, bf_eq⟩ : ∃ bf, (if is.lastOffset ≠ 0 then
      bfWrite is.bf is.blockSize is.lastBlock 0 is.lastOffset is.mergeBuf else is.bf) = bf := ⟨_,
        rfl⟩
  have in_file (p : Nat) (low : is.blockSize ≤ p) (high : p < is.endPos) :
      p < bf.size ∧ bf.data p = is.byteAt p := by
    rw [← bf_eq]
    by_cases inside : p < is.base
    · have backed := sound.backed p low inside
      rw [byteAt_file inside]
      split
      · exact ⟨lt_of_lt_of_le backed (le_max_left _ _), bfWrite_outside backed (.inl (by omega))⟩
      · exact ⟨backed, rfl⟩
    · rw [byteAt_buf (not_lt.mp inside), if_pos (by omega)]
      refine ⟨lt_of_lt_of_le ?_ (le_max_right _ _), ?_⟩
      · omega
      · exact (bfWrite_inside (by omega) (by omega)).trans (by rw [← base_eq])
  have closed_eq : Isams.isamsClose is = bfWrite bf is.blockSize 0 0 8
      (ofList (intBytes is.lastOffset ++ intBytes is.lastBlock)) := by
    rw [Isams.isamsClose, if_pos changed, ← bf_eq]
  have kept (p : Nat) (low : is.blockSize ≤ p) (high : p < is.endPos) :
      p < (Isams.isamsClose is).size ∧ (Isams.isamsClose is).data p = is.byteAt p := by
    obtain ⟨size, same⟩ := in_file p low high
    rw [closed_eq, ← same]
    exact ⟨lt_of_lt_of_le size (le_max_left _ _), bfWrite_outside size (.inr (by omega))⟩
  have head_holds : Holds (Isams.isamsClose is).data 0
      (intBytes is.lastOffset ++ intBytes is.lastBlock) := by
    intro i lt
    rw [List.length_append, length_intBytes, length_intBytes] at lt
    rw [closed_eq]
    refine (bfWrite_inside (by omega) (by omega)).trans ?_
    rw [ofList]
    congr 1
    omega
  have head_size : 8 ≤ (Isams.isamsClose is).size := by
    rw [closed_eq]
    exact le_trans (by omega) (le_max_right _ _)
  obtain ⟨offset_eq, block_eq⟩ := isamsOpen_head (by omega) (by omega) head_size
    head_holds
  have base_eq' : (isamsOpen is.blockSize (Isams.isamsClose is)).base = is.base := by
    rw [base, block_eq]
    rfl
  have end_eq' : (isamsOpen is.blockSize (Isams.isamsClose is)).endPos = is.endPos := by
    rw [endPos, base_eq', offset_eq]
    rfl
  refine ⟨?_, ?_, ?_, fun p low high => ?_, fun list mem => ?_⟩
  · rw [base_eq']
    exact block_pos
  · rw [offset_eq]
    exact sound.offset_le
  · rw [end_eq']
    exact small
  · rw [end_eq'] at high
    exact (kept p low high).1
  · rw [end_eq']
    exact (lists_at list mem).mono le_rfl fun p low high => (kept p low high).2

def Kept (codec : StreamCodec m) (bs : Nat) (lists : List (Int × List Item)) : Store → Prop
  | .closed bf => Closed codec bs bf lists
  | .opened is => Opened codec bs is lists

theorem closed_new (data : Mem) (bs_small : bs < 2147483648) : Closed codec bs ⟨0, data⟩ [] := by
  have base_eq : (isamsOpen bs ⟨0, data⟩).base = bs := Nat.one_mul bs
  have end_eq : (isamsOpen bs ⟨0, data⟩).endPos = bs := Nat.one_mul bs
  refine ⟨base_eq.ge, Nat.zero_le _, end_eq.trans_lt bs_small, fun p low high => ?_,
    fun list mem => ?_⟩
  · rw [end_eq] at high
    omega
  · cases mem

theorem Closed.readsBack {bf : BFile}
    (closed : Closed codec bs bf lists) (bs_ge : 128 ≤ bs) {list : Int × List Item}
    (mem : list ∈ lists) : ReadsBack m bs bf list.1 list.2 := by
  obtain ⟨start, pos_eq, low, inside, number, storable, holds⟩ := closed.lists list mem
  rw [pos_eq]
  exact readsBack_of_holds bs_ge low number storable
    (fun p low' high => closed.backed p (low.trans low') (lt_of_lt_of_le high inside)) holds

theorem Run.kept {store : Store}
    (run : Run codec bs (Proper m) store lists) (bs_ge : 128 ≤ bs) (bs_small : bs < 2147483648) :
    Kept codec bs lists store := by
  induction run with
  | new data => exact closed_new data bs_small
  | isamsOpen before induction => exact .fresh induction
  | merge before storable proper induction =>
    have merged {is : IsamsS} {lists : List (Int × List Item)} {items : List Item}
        (mergeable : Mergeable codec bs is lists)
          (le : is.headOld.2 * bs + is.headOld.1 ≤ is.endPos)
        (storable : Storable codec bs m.reset items) (proper : Proper m is items) :
        Opened codec bs (isamsMerge m is items).2
          (lists ++ [((isamsMerge m is items).1, items)]) := by
      obtain ⟨mergeable', grown, old_eq⟩ := mergeable.merge storable proper
      exact .merged mergeable' (by rw [old_eq]; omega)
    cases induction with
    | fresh closed => exact merged (closed.mergeable bs_ge proper) le_rfl storable proper
    | merged mergeable grown => exact merged mergeable grown.le storable proper
  | isamsClose before induction =>
    cases induction with
    | @fresh bf _ closed =>
      have same : Isams.isamsClose (Isams.isamsOpen bs bf) = bf := if_neg (not_not.mpr rfl)
      rw [same]
      exact closed
    | merged mergeable grown => exact mergeable.isamsClose bs_ge grown

/-- As long as nothing is merged behind bytes that `isams_open` has not read, every list is read
from its position, once it is in the file. -/
theorem reads_back (codec : StreamCodec m) {bs : Nat} (bs_ge : 128 ≤ bs)
    (bs_small : bs < 2147483648)
    {store : Store} {lists : List (Int × List Item)} (run : Run codec bs (Proper m) store lists) :
    ∀ list ∈ lists, InFile m store list.1 list.2 → ReadsBack m bs store.file list.1 list.2 := by
  intro list mem in_file
  have kept := run.kept bs_ge bs_small
  cases store with
  | closed bf => exact Closed.readsBack kept bs_ge mem
  | opened is =>
    have opened : Opened codec bs is lists := kept
    cases opened with
    | fresh closed => exact closed.readsBack bs_ge mem
    | merged mergeable grown =>
      obtain ⟨size_eq, sound, -, lists_at⟩ := mergeable
      subst size_eq
      obtain ⟨start, pos_eq, low, inside, number, storable, holds⟩ := lists_at list mem
      rw [pos_eq] at in_file ⊢
      have bytes (p : Nat) (low' : start ≤ p) (high : p < start + listSize m list.2) :
          p < is.bf.size ∧ is.bf.data p = is.byteAt p := by
        by_cases before : p < is.base
        · exact ⟨sound.backed p (low.trans low') before, (byteAt_file before).symm⟩
        · rw [byteAt_buf (not_lt.mp before)]
          refine sound.kept p (not_lt.mp before) ?_
          rcases in_file with written | old <;> omega
      refine readsBack_of_holds bs_ge low number storable
        (fun p low' high => (bytes p low' high).1) (holds.congr fun p low' high => ?_)
      rw [List.length_append, length_intBytes] at high
      exact (bytes p low' high).2

/-- `iscz1` as a codec of streams. -/
def keyCodec : StreamCodec keyMethod where
  Valid := ItKey.Valid
  Together enc dec := enc = dec ∧ enc.length = itKeyLevelMax
  start := ⟨rfl, rfl⟩
  decode_encode := by
    rintro enc dec key ⟨rfl, levels⟩ valid
    refine ⟨_, ⟨rfl, ?_⟩, iscz1Decode_encode valid levels⟩
    have room : key.length ≤ enc.length := levels ▸ valid.le_max
    change (iscz1Encode enc key).1.length = _
    rw [iscz1Encode_state room, List.length_append, List.length_drop]
    omega

theorem storable_one {key : ItKey} (valid : key.Valid)
    (short : (iscz1Encode iscz1Reset key).2.length < 128) :
    Storable keyCodec 128 keyMethod.reset [key] := ⟨valid, short, trivial⟩

/-- Two lists in a store that has been closed and opened again. -/
theorem reads_back_reopened : ∃ is lists,
    Run keyCodec 128 (Proper keyMethod) (.opened is) lists ∧
      lists.map Prod.snd = [[[1, 2]], [[1, 3], [2, 1]]] ∧
      ∀ list ∈ lists, ReadsBack keyMethod 128 is.bf list.1 list.2 := by
  have new : Run keyCodec 128 (Proper keyMethod) (.closed ⟨0, fun _ => 0⟩) [] := .new _
  have storable : Storable keyCodec 128 keyMethod.reset [[1, 3], [2, 1]] :=
    ⟨⟨by decide, by decide, by decide⟩, by decide, ⟨by decide, by decide, by decide⟩, by decide,
      trivial⟩
  have first := new.isamsOpen.merge
    (storable_one (show ItKey.Valid [1, 2] from ⟨by decide, by decide, by decide⟩) (by decide))
    ⟨fun _ i lt => absurd lt (Nat.not_lt_zero i), by decide, by decide⟩
  have second := first.merge storable ⟨fun same => absurd same (by decide), by decide, by decide⟩
  have run := second.isamsClose.isamsOpen
  refine ⟨_, _, run, rfl, fun list mem => ?_⟩
  refine reads_back keyCodec (by decide) (by decide) run list mem ?_
  rcases List.mem_append.mp mem with mem | mem
  · cases List.mem_singleton.mp mem
    exact .inr (by decide)
  · cases List.mem_singleton.mp mem
    exact .inr (by decide)

/-- A list merged after the store has been reopened puts zeros over the one before. -/
theorem reopened_not_read_back :
    ¬∀ (store : Store) (lists : List (Int × List ItKey)),
      Run keyCodec 128 (fun _ _ => True) store lists →
        ∀ list ∈ lists, InFile keyMethod store list.1 list.2 →
          ReadsBack keyMethod 128 store.file list.1 list.2 := by
  intro claim
  have first : Storable keyCodec 128 keyMethod.reset [[1, 2]] :=
    storable_one ⟨by decide, by decide, by decide⟩ (by decide)
  have second : Storable keyCodec 128 keyMethod.reset [[1, 3]] :=
    storable_one ⟨by decide, by decide, by decide⟩ (by decide)
  have read := claim _ _
    (.isamsClose (.merge (.isamsOpen (.isamsClose (.merge (.isamsOpen (.new fun _ => 0)) first
      trivial))) second trivial))
    (128, [[1, 2]]) (by decide) trivial (fun _ => 0) 2 (by decide)
  exact absurd read (by decide)

end Zebra.Isams
