import Zebra.Records.Accounts

/-!
# Grouped records are read back

The reader goes through the chunk record by record and takes for a field that is the same as before
what the record before it has; at the record it looks for it has exactly the fields written for it.
-/

namespace Zebra.Records

open List
open Option (bind_some)

/-- The `REC_NO_INFO` fields of a record. -/
def Rec.fields (record : Rec) : List (List Byte) :=
  (List.range recNoInfo).map fun i => record.info.getD i []

theorem Rec.getD_fields (record : Rec) {i : Nat} (low : i < recNoInfo) :
    record.fields.getD i [] = record.info.getD i [] := by
  rw [Rec.fields, getD_eq_getElem?_getD, getElem?_map, getElem?_range low]
  rfl

def encodeAll : Option Rec → List Rec → List Byte
  | _, [] => []
  | last, record :: records => encodeRecord last record ++ encodeAll (some record) records

theorem out_foldl_add (records : List Rec) (chunk : Chunk) :
    (records.foldl Chunk.add chunk).out = chunk.out ++ encodeAll chunk.last records := by
  induction records generalizing chunk with
  | nil => exact (append_nil _).symm
  | cons record records induction =>
    rw [foldl_cons, induction, encodeAll, ← append_assoc]
    rfl

theorem decodeField_encodeField {last : Option (List Byte)} {old : List Byte}
    (before : last = none ∨ last = some old) (info tail : List Byte) :
    decodeField old (encodeField last info ++ tail) = some (info, tail) := by
  unfold encodeField
  split
  case isTrue empty =>
    rw [decodeField, Varint.decode_encode, empty]
    rfl
  case isFalse some =>
    split
    case isTrue same =>
      rw [decodeField, Varint.decode_encode, bind_some]
      dsimp only
      rw [if_pos rfl]
      rcases before with none | eq
      · rw [none] at same
        cases same
      · rw [eq] at same
        cases same
        rfl
    case isFalse =>
      have enough : ¬ (info ++ tail).length < info.length + 1 - 1 := by
        rw [length_append]
        omega
      rw [decodeField, append_assoc, Varint.decode_encode, bind_some]
      dsimp only
      rw [if_neg (Nat.succ_ne_zero _), if_neg enough, Nat.add_sub_cancel, take_left,
        drop_left]

theorem decodeFields_encode (places : List Nat) {last : Nat → Option (List Byte)}
    {old new : Nat → List Byte} (before : ∀ i, last i = none ∨ last i = some (old i))
    (tail : List Byte) :
    decodeFields (places.map old) (places.flatMap (fun i => encodeField (last i) (new i)) ++ tail) =
      some (places.map new, tail) := by
  induction places with
  | nil => rfl
  | cons i places induction =>
    rw [map_cons, flatMap_cons, append_assoc, decodeFields,
      decodeField_encodeField (before i), bind_some]
    dsimp only
    rw [induction]
    rfl

def Holds (last : Option Rec) (infos : List (List Byte)) : Prop :=
  (∃ old : Nat → List Byte, infos = (List.range recNoInfo).map old) ∧
    ∀ record, last = some record → infos = record.fields

theorem decodeFields_record {last : Option Rec} {infos : List (List Byte)}
    (holds : Holds last infos) (record : Rec) (tail : List Byte) :
    decodeFields infos
        (((List.range recNoInfo).flatMap fun i =>
          encodeField (last.map fun last => last.info.getD i []) (record.info.getD i [])) ++ tail) =
      some (record.fields, tail) := by
  obtain ⟨⟨old, rfl⟩, same⟩ := holds
  cases last with
  | none =>
    exact decodeFields_encode (List.range recNoInfo) (fun _ => .inl rfl) tail
  | some before =>
    rw [same before rfl]
    exact decodeFields_encode (List.range recNoInfo) (fun _ => .inr rfl) tail

theorem encodeAll_length (last : Option Rec) (records : List Rec) :
    records.length ≤ (encodeAll last records).length := by
  induction records generalizing last with
  | nil => exact Nat.le_refl _
  | cons record records induction =>
    have rest := induction (some record)
    have front := Varint.encode_length_pos record.sysno
    rw [encodeAll, encodeRecord, length_append, length_append, length_cons]
    omega

/-- The record that is looked for is found behind the others. -/
theorem decodeChunk_encodeAll {fuel : Nat} {last : Option Rec} {infos : List (List Byte)}
    {records : List Rec} (holds : Holds last infos) (nodup : (records.map Rec.sysno).Nodup)
    {record : Rec} (mem : record ∈ records) (enough : records.length < fuel) :
    decodeChunk record.sysno fuel infos (encodeAll last records) = some record.fields := by
  induction records generalizing fuel last infos with
  | nil => cases mem
  | cons first records induction =>
    cases fuel with
    | zero => cases enough
    | succ fuel =>
      have nonempty : encodeAll last (first :: records) ≠ [] := by
        apply ne_nil_of_length_pos
        have length := encodeAll_length last (first :: records)
        rw [length_cons] at length
        omega
      rw [decodeChunk, if_neg nonempty, encodeAll, encodeRecord, append_assoc,
        Varint.decode_encode, bind_some]
      dsimp only
      rw [decodeFields_record holds, bind_some]
      dsimp only
      obtain ⟨notIn, rest⟩ := nodup_cons.mp nodup
      rcases mem_cons.mp mem with rfl | mem
      · rw [if_pos rfl]
      · have other : first.sysno ≠ record.sysno := by
          intro eq
          rw [eq] at notIn
          exact notIn (mem_map_of_mem mem)
        rw [if_neg other]
        apply induction _ rest mem (Nat.lt_of_succ_lt_succ enough)
        refine ⟨⟨fun i => first.info.getD i [], rfl⟩, fun r eq => ?_⟩
        cases eq
        rfl

theorem readChain_eq {cls : BlockClass} {fuel first : Nat} {chain : List Nat}
    (follows : Follows cls.nextOf first chain) (enough : chain.length ≤ fuel)
    (there : ∀ b ∈ chain, (cls.file b).isSome) :
    readChain fuel cls first = some (cls.dataOf chain) := by
  induction follows generalizing fuel with
  | nil => cases fuel <;> exact if_pos rfl
  | @cons number rest named _ induction =>
    cases fuel with
    | zero => exact absurd enough (Nat.not_succ_le_zero _)
    | succ fuel =>
      obtain ⟨b, found⟩ := Option.isSome_iff_exists.mp (there number (mem_cons_self ..))
      have next : cls.nextOf number = b.next := by
        rw [BlockClass.nextOf, found]
        rfl
      have read := induction (Nat.le_of_succ_le_succ enough)
        fun c mem => there c (mem_cons_of_mem _ mem)
      rw [next] at read
      rw [readChain, if_neg named, found, bind_some, read, BlockClass.dataOf,
        BlockClass.dataOf, flatMap_cons, found]
      rfl

/-- What has been compressed is decompressed as it was. -/
def Lossless (comp : Compression) : Prop :=
  ∀ out packed, comp.compress out = some packed → comp.uncompress comp.method packed = some out

theorem store_cases (comp : Compression) (out : List Byte) :
    comp.store out = (recCompressNone, out) ∨ comp.method ≠ recCompressNone ∧
      ∃ packed, comp.compress out = some packed ∧ comp.store out = (comp.method, packed) := by
  unfold Compression.store
  by_cases plain : comp.method = recCompressNone
  · exact .inl (if_pos plain)
  · rw [if_neg plain]
    cases comp.compress out with
    | none => exact .inl rfl
    | some packed =>
      dsimp only
      by_cases empty : packed = []
      · exact .inl (if_pos empty)
      · exact .inr ⟨plain, packed, rfl, if_neg empty⟩

theorem store_lossless {comp : Compression} (lossless : Lossless comp) (out : List Byte) :
    (if (comp.store out).1 = recCompressNone then some (comp.store out).2
      else comp.uncompress (comp.store out).1 (comp.store out).2) = some out := by
  rcases store_cases comp out with eq | ⟨plain, packed, compressed, eq⟩
  · rw [eq]
    exact if_pos rfl
  · rw [eq]
    dsimp only
    rw [if_neg plain]
    exact lossless out packed compressed

/-- A member of a group is read from the chain of the group. -/
theorem readRecord_stored {comp : Compression} (lossless : Lossless comp) {st : Store}
    {entry : IndexEntry} {count : Nat} {records : List Rec}
    (nodup : (records.map Rec.sysno).Nodup) {record : Rec} (mem : record ∈ records)
    (found : st.index record.sysno = some entry) (size : entry.size ≠ 0)
    (stored : Stored st entry (withRef count ((comp.store (encodeAll none records)).1 ::
      (comp.store (encodeAll none records)).2))) :
    readRecord comp st record.sysno = some { sysno := record.sysno, info := record.fields } := by
  obtain ⟨t, first, chain, junk, low, next, named, follows, length, there, data⟩ := stored.chain
  have type : entry.next % 8 = t := by omega
  have number : entry.next / 8 = first := by omega
  have guard : ¬ (2 ≤ t ∨ first = 0) := by omega
  have read := readChain_eq follows length there
  rw [data] at read
  have packed : ((withRef count ((comp.store (encodeAll none records)).1 ::
      (comp.store (encodeAll none records)).2) ++ junk).drop 3).take (entry.size - 3) =
        (comp.store (encodeAll none records)).2 := by
    have bytes : entry.size - 3 = (comp.store (encodeAll none records)).2.length := by
      rw [stored.size, withRef, length_cons, length_cons, length_cons]
      omega
    rw [bytes]
    exact take_left
  have method : (withRef count ((comp.store (encodeAll none records)).1 ::
      (comp.store (encodeAll none records)).2) ++ junk).getD 2 0 =
        (comp.store (encodeAll none records)).1 := rfl
  have start : Holds none (replicate recNoInfo []) :=
    ⟨⟨fun _ => [], rfl⟩, fun _ eq => by cases eq⟩
  have decoded := decodeChunk_encodeAll start nodup mem
    (Nat.lt_succ_of_le (encodeAll_length none records))
  unfold readRecord
  rw [found]
  dsimp only
  rw [if_neg size, type, number, if_neg guard, read, bind_some, packed, method,
    store_lossless lossless, bind_some, decoded]
  rfl

/-- The records that a flush writes are in one chunk. -/
theorem Sound.cacheFlush_stored (comp : Compression) {st after : Store} (sound : Sound st)
    {saveCount : Nat} (run : Records.cacheFlush comp st saveCount = some after) :
    ∃ group, (group.map Rec.sysno).Nodup ∧
      ∀ e ∈ st.cache, e.kept = true → e ∉ after.cache →
        e.record ∈ group ∧ ∃ entry, after.index e.record.sysno = some entry ∧ entry.size ≠ 0 ∧
          Stored after entry (withRef group.length ((comp.store (encodeAll none group)).1 ::
            (comp.store (encodeAll none group)).2)) := by
  obtain ⟨chains, free, accounts⟩ := sound.accounts
  have split := take_append_drop
    (st.cache.length - if st.cache.length ≤ saveCount then 0 else saveCount) st.cache
  unfold Records.cacheFlush at run
  dsimp only at run
  generalize st.cache.length - (if st.cache.length ≤ saveCount then 0 else saveCount) = count at *
  have part : (st.cache.take count).Sublist st.cache := take_sublist _ _
  have holds := sound.entries.sublist part
  have few : (st.cache.take count).length ≤ cacheMax := part.length_le.trans sound.few
  obtain ⟨written, _, _, multiple, _, _, _, _, _, kept⟩ :=
    accounts.writeMultiple comp holds few
  rw [multiple, Option.map_some] at run
  cases run
  have sysnos : (((st.cache.take count).filter CacheEntry.kept).map CacheEntry.record).map
      Rec.sysno = ((st.cache.take count).filter CacheEntry.kept).map
        fun e => e.record.sysno := by
    rw [map_map]
    rfl
  refine ⟨((st.cache.take count).filter CacheEntry.kept).map CacheEntry.record, ?_,
    fun e mem yes outside => ?_⟩
  · rw [sysnos]
    exact (filter_sublist.map _).nodup holds.nodup
  · have front : e ∈ st.cache.take count := by
      rw [← split] at mem
      rcases mem_append.mp mem with mem | mem
      · exact mem
      · exact absurd mem outside
    obtain ⟨entry, found, size, stored⟩ := kept e front yes
    rw [Chunk.gather, out_foldl_add, nil_append] at stored
    refine ⟨mem_map.mpr ⟨e, mem_filter.mpr ⟨front, yes⟩, rfl⟩, entry, found, size, ?_⟩
    rw [length_map]
    exact ⟨stored.size, stored.chain⟩

/-- A method that turns the bytes around. -/
def turned : Compression :=
  { method := recCompressBzip2, compress := fun out => some out.reverse,
    uncompress := fun _ packed => some packed.reverse }

theorem lossless_turned : Lossless turned := by
  intro out packed compressed
  cases compressed
  exact congrArg some (reverse_reverse out)

end Zebra.Records
