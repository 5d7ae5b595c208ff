import Mathlib.Order.PiLex
import Zebra.Index.KeyFile
import Zebra.Keys.KeyOrder

/-!
# Keys survive the temporary files

Whatever is written through the buffer comes back from the files: each file gives the entries of one
filling of the buffer, in order, whatever the chunk size; and two threads write the same files as
one thread with a buffer of the same size.
-/

namespace Zebra.TempFile

open List Option

section

theorem strcmp_swap (a b : List Byte) : strcmp b a = -strcmp a b := by
  induction a generalizing b with
  | nil => cases b <;> rfl
  | cons x a ih =>
    cases b with
    | nil => rfl
    | cons y b =>
      rcases lt_trichotomy x y with lt | rfl | gt
      · simp [strcmp, lt, lt.ne, lt.ne', lt.not_gt]
      · simp [strcmp, ih b]
      · simp [strcmp, gt, gt.ne, gt.ne', gt.not_gt]

theorem strcmp_neg (a b : List Byte) : strcmp a b < 0 ↔ a < b := by
  induction a generalizing b with
  | nil => cases b <;> simp [strcmp]
  | cons x a ih =>
    cases b with
    | nil => simp [strcmp]
    | cons y b =>
      rw [strcmp, cons_lt_cons_iff]
      split
      · next same => simp [same, ih b]
      · next differ => split <;> simp_all

theorem strcmp_comparator : Comparator strcmp := by
  refine .of_lt id strcmp_neg fun a b => ?_
  rw [← Int.neg_neg_iff_pos, ← strcmp_swap]
  exact strcmp_neg b a

theorem strcmp_eq_zero {a b : List Byte} : strcmp a b = 0 ↔ a = b := by
  have neg := strcmp_neg a b
  have pos := strcmp_neg b a
  rw [strcmp_swap] at pos
  constructor
  · intro zero
    exact le_antisymm (not_lt.mp fun lt => by have := pos.mpr lt; omega)
      (not_lt.mp fun lt => by have := neg.mpr lt; omega)
  · rintro rfl
    have irrefl := lt_irrefl a
    have not_neg := mt neg.mp irrefl
    have not_pos := mt pos.mp irrefl
    omega

def levels (key : ItKey) : Lex (Nat → Nat) := toLex fun i => key.getD i 0

theorem keyCompareFrom_neg_iff (n : Nat) (i1 i2 : ItKey) :
    keyCompareFrom n i1 i2 < 0 ↔
      ∃ i < n, (∀ j < i, i1.getD j 0 = i2.getD j 0) ∧ i1.getD i 0 < i2.getD i 0 := by
  induction n generalizing i1 i2 with
  | zero => simp [keyCompareFrom]
  | succ n ih =>
    have head (key : ItKey) : key.headD 0 = key.getD 0 0 := by cases key <;> rfl
    have tail (key : ItKey) (i : Nat) : key.tail.getD i 0 = key.getD (i + 1) 0 := by
      cases key <;> simp
    rw [keyCompareFrom, head, head]
    split
    · next same =>
      rw [ih]
      constructor
      · rintro ⟨i, i_lt, before, lt⟩
        refine ⟨i + 1, by omega, fun j j_lt => ?_, by rwa [tail, tail] at lt⟩
        cases j with
        | zero => exact same
        | succ j =>
          have at_j := before j (by omega)
          rwa [tail, tail] at at_j
      · rintro ⟨i, i_lt, before, lt⟩
        cases i with
        | zero => omega
        | succ i =>
          refine ⟨i, by omega, fun j j_lt => ?_, by rwa [tail, tail]⟩
          rw [tail, tail]
          exact before (j + 1) (by omega)
    · next differ =>
      constructor
      · intro neg
        refine ⟨0, by omega, fun j j_lt => absurd j_lt (Nat.not_lt_zero j), ?_⟩
        split at neg <;> omega
      · rintro ⟨i, i_lt, before, lt⟩
        cases i with
        | zero => split <;> omega
        | succ i => exact absurd (before 0 (Nat.succ_pos i)) differ

theorem keyCompare_neg_iff (i1 i2 : ItKey) : keyCompare i1 i2 < 0 ↔ levels i1 < levels i2 := by
  rw [keyCompare, keyCompareFrom_neg_iff]
  constructor
  · rintro ⟨i, -, before, lt⟩
    exact ⟨i, before, lt⟩
  · rintro ⟨i, before, lt⟩
    refine ⟨i, ?_, before, lt⟩
    by_contra beyond
    have none_left : i2.getD i 0 = 0 := by
      rw [getD_eq_getElem?_getD, getElem?_eq_none (by omega)]
      rfl
    change i1.getD i 0 < i2.getD i 0 at lt
    omega

theorem keyCompare_comparator : Comparator keyCompare := by
  refine .of_lt levels keyCompare_neg_iff fun i1 i2 => ?_
  rw [← Int.neg_neg_iff_pos, keyCompare, ← keyCompareFrom_swap, Nat.max_comm]
  exact keyCompare_neg_iff i2 i1

theorem keyQsortCompare_comparator : Comparator keyQsortCompare := by
  have flags : Comparator fun e1 e2 : Entry => (e1.insert.toNat : Int) - e2.insert.toNat :=
    .of_lt (fun entry => entry.insert.toNat) (by omega) (by omega)
  exact (strcmp_comparator.comap Entry.name).lex
    ((keyCompare_comparator.comap Entry.key).lex flags)

end

section

/-- A file is read up to `rest`. -/
structure KeyFile.At (f : KeyFile) (rest : List Byte) : Prop where
  chunk_pos : 0 < f.chunk
  buf : f.buf = (f.file.drop f.offset).take f.chunk
  ptr_le : f.bufPtr ≤ f.buf.length
  rest : f.file.drop (f.offset + f.bufPtr) = rest

/-- Reading has gone on to `rest`, and nothing but the position has changed. -/
structure KeyFile.Moved (f : KeyFile) (rest : List Byte) (f' : KeyFile) : Prop where
  at_rest : f'.At rest
  file : f'.file = f.file
  prevName : f'.prevName = f.prevName
  decodeHandle : f'.decodeHandle = f.decodeHandle

namespace KeyFile

variable {f f' : KeyFile} {rest : List Byte}

theorem init_at {chunk : Nat} (chunk_pos : 0 < chunk) (file : List Byte) :
    (init chunk file).At file where
  chunk_pos := chunk_pos
  buf := rfl
  ptr_le := Nat.zero_le _
  rest := rfl

theorem Moved.trans {f'' : KeyFile} {rest' : List Byte} (first : Moved f rest f')
    (second : Moved f' rest' f'') : Moved f rest' f'' :=
  ⟨second.at_rest, second.file.trans first.file, second.prevName.trans first.prevName,
    second.decodeHandle.trans first.decodeHandle⟩

/-- A position behind the buffer is one in front of the next part of the file. -/
theorem At.refill (at_rest : f.At rest) (behind : f.buf.length ≤ f.bufPtr) :
    (chunkRead { f with offset := f.offset + f.buf.length }).At rest ∧
      (chunkRead { f with offset := f.offset + f.buf.length }).buf = rest.take f.chunk := by
  have ptr_eq : f.bufPtr = f.buf.length := Nat.le_antisymm at_rest.ptr_le behind
  have rest_eq := at_rest.rest
  rw [ptr_eq] at rest_eq
  refine ⟨⟨at_rest.chunk_pos, rfl, Nat.zero_le _, rest_eq⟩, ?_⟩
  rw [← rest_eq]
  rfl

theorem At.getElem? (at_rest : f.At rest) (inside : f.bufPtr < f.buf.length) :
    f.buf[f.bufPtr]? = rest.head? := by
  have buf := at_rest.buf
  have small : f.bufPtr < f.chunk := by
    have length := congrArg List.length buf
    rw [length_take] at length
    omega
  rw [buf, getElem?_take_of_lt small, getElem?_drop, ← at_rest.rest, head?_drop]

theorem At.next (at_rest : f.At rest) (inside : f.bufPtr < f.buf.length) :
    Moved f rest.tail { f with bufPtr := f.bufPtr + 1 } := by
  refine ⟨⟨at_rest.chunk_pos, at_rest.buf, inside, ?_⟩, rfl, rfl, rfl⟩
  rw [← at_rest.rest, tail_drop]
  rfl

/-- `key_file_getc` gives the next byte of the file. -/
theorem getc_cons {c : Byte} (at_rest : f.At (c :: rest)) :
    ∃ f', f.getc = (some c, f') ∧ Moved f rest f' := by
  by_cases inside : f.bufPtr < f.buf.length
  · refine ⟨_, ?_, at_rest.next inside⟩
    rw [getc, at_rest.getElem? inside]
    rfl
  · have behind := Nat.le_of_not_lt inside
    by_cases short : f.buf.length < f.chunk
    · -- a buffer that is not full ends where the file ends
      exfalso
      have length := congrArg List.length at_rest.buf
      have left := congrArg List.length at_rest.rest
      simp only [length_take, length_drop, length_cons] at length left
      omega
    · obtain ⟨refilled, buf⟩ := at_rest.refill behind
      have inside' : 0 < (chunkRead { f with offset := f.offset + f.buf.length }).buf.length := by
        rw [buf, length_take, length_cons]
        have chunk_pos := at_rest.chunk_pos
        omega
      refine ⟨_, ?_, (refilled.next inside').at_rest, rfl, rfl, rfl⟩
      have found := refilled.getElem? inside'
      rw [getc, getElem?_eq_none behind]
      simp only [short, if_false, found, head?_cons]

/-- At the end of the file `key_file_getc` says so. -/
theorem getc_nil (at_end : f.At []) : ∃ f', f.getc = (none, f') := by
  have behind : f.buf.length ≤ f.bufPtr := by
    by_contra inside
    have found := at_end.getElem? (Nat.lt_of_not_le inside)
    rw [getElem?_eq_getElem (Nat.lt_of_not_le inside)] at found
    cases found
  by_cases short : f.buf.length < f.chunk
  · refine ⟨f, ?_⟩
    rw [getc, getElem?_eq_none behind]
    exact if_pos short
  · obtain ⟨refilled, buf⟩ := at_end.refill behind
    refine ⟨chunkRead { f with offset := f.offset + f.buf.length }, ?_⟩
    rw [getc, getElem?_eq_none behind]
    simp only [short, if_false, buf, take_nil, getElem?_nil]

theorem readName_spec {name key : List Byte} (nonzero : ∀ c ∈ name, c ≠ 0) {fuel : Nat}
    (fuel_gt : name.length < fuel) (short : key.length + name.length ≤ inpNameMax - 2)
    (at_rest : f.At (name ++ 0 :: rest)) :
    ∃ f', readName fuel f key = some (key ++ name, f') ∧ Moved f rest f' := by
  induction name generalizing f key fuel with
  | nil =>
    obtain ⟨fuel, rfl⟩ := Nat.exists_eq_add_one.mpr fuel_gt
    obtain ⟨f', got, moved⟩ := getc_cons at_rest
    exact ⟨f', by rw [readName, got, append_nil]; rfl, moved⟩
  | cons c name ih =>
    rw [length_cons] at short fuel_gt
    obtain ⟨fuel, rfl⟩ := Nat.exists_eq_add_one.mpr (Nat.zero_lt_of_lt fuel_gt)
    obtain ⟨f₁, got, moved⟩ := getc_cons at_rest
    have short' : (key ++ [c]).length + name.length ≤ inpNameMax - 2 := by
      rw [length_append, length_singleton]
      omega
    obtain ⟨f', run, moved'⟩ := ih (fun c mem => nonzero c (.tail _ mem))
      (show name.length < fuel by omega) short' moved.at_rest
    refine ⟨f', ?_, moved.trans moved'⟩
    rw [readName, got]
    simp only [nonzero c mem_cons_self, if_false,
      if_pos (show key.length < inpNameMax - 2 by omega),
      run, append_assoc, singleton_append]

theorem readBytes_spec {src : List Byte} (at_rest : f.At (src ++ rest)) :
    ∃ f', readBytes src.length f = (src, f') ∧ Moved f rest f' := by
  induction src generalizing f with
  | nil => exact ⟨f, rfl, at_rest, rfl, rfl, rfl⟩
  | cons c src ih =>
    obtain ⟨f₁, got, moved⟩ := getc_cons at_rest
    obtain ⟨f', run, moved'⟩ := ih moved.at_rest
    refine ⟨f', ?_, moved.trans moved'⟩
    simp only [length_cons, readBytes, got, run, getD_some]

end KeyFile

/-- Entries that a file can hold. -/
structure Entry.Valid (entry : Entry) : Prop where
  nonzero : ∀ c ∈ entry.name, c ≠ 0
  /-- `key_file_read` has room for the name. -/
  short : entry.name.length ≤ inpNameMax - 2
  key : entry.key.Valid

namespace KeyFile

variable {f : KeyFile} {rest : List Byte} {entry : Entry}

/-- The reader has the name and the decoder state that the writer left, up to `rest`. -/
structure Follows (f : KeyFile) (name : List Byte) (i : CodeInfo) (rest : List Byte) : Prop where
  at_rest : f.At rest
  prevName : f.prevName = name
  decodeHandle : f.decodeHandle = i
  levels : i.length = itKeyLevelMax

theorem encodeKeyWrite_eq (k : List Byte) (i : CodeInfo) (valid : entry.Valid)
    (levels : i.length = itKeyLevelMax) :
    (encodeKeyWrite k i entry).2 =
      k ++ 0 :: (entry.insert.toNat * 128 + (iscz1Encode i entry.key).2.length) ::
        (iscz1Encode i entry.key).2 := by
  have room : entry.key.length ≤ i.length := levels ▸ valid.key.le_max
  have length_le := iscz1Encode_length_le valid.key room
  have byte : entry.insert.toNat * 128 + (iscz1Encode i entry.key).2.length < 256 := by
    have flag_le := Bool.toNat_le entry.insert
    omega
  simp only [encodeKeyWrite, Nat.mod_eq_of_lt byte]

variable {i : CodeInfo}

/-- What `key_file_read` does behind the name. -/
theorem read_key {name : List Byte} (valid : entry.Valid)
    (follows : f.Follows name i
      ((entry.insert.toNat * 128 + (iscz1Encode i entry.key).2.length) ::
        ((iscz1Encode i entry.key).2 ++ rest))) :
    ∃ f₁ f₂ c, f.getc = (some c, f₁) ∧
      readBytes (c % 128) f₁ = ((iscz1Encode i entry.key).2, f₂) ∧
      decide (128 ≤ c) = entry.insert ∧ Moved f rest f₂ ∧
      iscz1Decode f₂.decodeHandle (iscz1Encode i entry.key).2 =
        some (entry.key, (iscz1Encode i entry.key).1, []) := by
  have room : entry.key.length ≤ i.length := follows.levels ▸ valid.key.le_max
  have length_le := iscz1Encode_length_le valid.key room
  obtain ⟨f₁, got, moved₁⟩ := getc_cons follows.at_rest
  obtain ⟨f₂, bytes, moved₂⟩ := readBytes_spec moved₁.at_rest
  have moved := moved₁.trans moved₂
  have flag_le := Bool.toNat_le entry.insert
  refine ⟨f₁, f₂, _, got, ?_, ?_, moved, ?_⟩
  · have count : (entry.insert.toNat * 128 + (iscz1Encode i entry.key).2.length) % 128 =
        (iscz1Encode i entry.key).2.length := by omega
    rw [count]
    exact bytes
  · cases insert : entry.insert with
    | true =>
      have large : 128 ≤ 1 * 128 + (iscz1Encode i entry.key).2.length := by omega
      exact decide_eq_true large
    | false =>
      have small : ¬128 ≤ 0 * 128 + (iscz1Encode i entry.key).2.length := by omega
      exact decide_eq_false small
  · rw [moved.decodeHandle, follows.decodeHandle]
    have decoded := iscz1Decode_encode valid.key follows.levels []
    rwa [append_nil] at decoded

theorem levels_encode (valid : entry.Valid) (levels : i.length = itKeyLevelMax) :
    (iscz1Encode i entry.key).1.length = itKeyLevelMax := by
  have room : entry.key.length ≤ i.length := levels ▸ valid.key.le_max
  rw [iscz1Encode_state room, length_append, length_drop]
  omega

theorem read_repeated (valid : entry.Valid)
    (follows : f.Follows entry.name i ((encodeKeyWrite [] i entry).2 ++ rest)) :
    ∃ f', f.read = some (some entry, f') ∧
      f'.Follows entry.name (encodeKeyWrite [] i entry).1 rest ∧ f'.file = f.file := by
  obtain ⟨at_rest, prevName, decodeHandle, levels⟩ := follows
  rw [encodeKeyWrite_eq [] i valid levels] at at_rest
  obtain ⟨f₀, zero, moved₀⟩ := getc_cons at_rest
  obtain ⟨f₁, f₂, c, got, bytes, flag, moved, decoded⟩ := read_key valid
    ⟨moved₀.at_rest, moved₀.prevName.trans prevName, moved₀.decodeHandle.trans decodeHandle, levels⟩
  refine ⟨{ f₂ with decodeHandle := (iscz1Encode i entry.key).1 }, ?_,
    ⟨⟨moved.at_rest.chunk_pos, moved.at_rest.buf, moved.at_rest.ptr_le, moved.at_rest.rest⟩,
      moved.prevName.trans (moved₀.prevName.trans prevName), rfl, levels_encode valid levels⟩,
    moved.file.trans moved₀.file⟩
  have name : f₀.prevName = entry.name := moved₀.prevName.trans prevName
  rw [read, zero]
  simp only [if_true, bind_eq_bind, bind_some, got, getD_some, bytes, decoded, flag,
    name]

theorem read_named (valid : entry.Valid) (name_ne : entry.name ≠ [])
    (at_rest : f.At ((encodeKeyWrite entry.name iscz1Reset entry).2 ++ rest)) :
    ∃ f', f.read = some (some entry, f') ∧
      f'.Follows entry.name (encodeKeyWrite entry.name iscz1Reset entry).1 rest ∧
      f'.file = f.file := by
  have levels : iscz1Reset.length = itKeyLevelMax := rfl
  rw [encodeKeyWrite_eq _ _ valid levels] at at_rest
  have nonzero := valid.nonzero
  have short := valid.short
  have fuel : entry.name.length ≤ f.file.length := by
    have left := congrArg List.length at_rest.rest
    rw [length_drop, append_assoc, length_append] at left
    omega
  cases name_eq : entry.name with
  | nil => exact absurd name_eq name_ne
  | cons first name =>
    rw [name_eq] at at_rest nonzero short fuel
    rw [length_cons] at short fuel
    simp only [append_assoc, cons_append] at at_rest
    obtain ⟨f₀, got₀, moved₀⟩ := getc_cons at_rest
    have fuel_gt : name.length < f₀.file.length + 1 := by
      rw [moved₀.file]
      omega
    have room : [first].length + name.length ≤ inpNameMax - 2 := by
      rw [length_singleton]
      omega
    obtain ⟨f₁, read_name, moved₁⟩ := readName_spec
      (fun c mem => nonzero c (.tail _ mem)) fuel_gt room moved₀.at_rest
    let f₂ : KeyFile := { f₁ with prevName := first :: name, decodeHandle := iscz1Reset }
    have follows : f₂.Follows (first :: name) iscz1Reset
        ((entry.insert.toNat * 128 + (iscz1Encode iscz1Reset entry.key).2.length) ::
          ((iscz1Encode iscz1Reset entry.key).2 ++ rest)) :=
      ⟨⟨moved₁.at_rest.chunk_pos, moved₁.at_rest.buf, moved₁.at_rest.ptr_le, moved₁.at_rest.rest⟩,
        rfl, rfl, levels⟩
    obtain ⟨f₃, f₄, c, got, bytes, flag, moved, decoded⟩ := read_key valid follows
    refine ⟨{ f₄ with decodeHandle := (iscz1Encode iscz1Reset entry.key).1 }, ?_,
      ⟨⟨moved.at_rest.chunk_pos, moved.at_rest.buf, moved.at_rest.ptr_le, moved.at_rest.rest⟩,
        moved.prevName, rfl, levels_encode valid levels⟩,
      moved.file.trans (moved₁.file.trans moved₀.file)⟩
    have got₂ : KeyFile.getc { f₁ with prevName := entry.name, decodeHandle := iscz1Reset } =
        (some c, f₃) := by
      rw [name_eq]
      exact got
    rw [read, got₀]
    simp only [nonzero first mem_cons_self, if_false, bind_eq_bind, read_name,
      bind_some, singleton_append, got₂, getD_some, bytes, decoded, flag,
      ← name_eq]

/-- Names increase, so the empty name is in front of all others. -/
def EmptyFirst (names : List (List Byte)) : Prop := names.Pairwise fun a b => b = [] → a = []

theorem readAll_writeRest {entries : List Entry} (valid : ∀ entry ∈ entries, entry.Valid)
    {prevcp : List Byte} (empty_first : EmptyFirst (prevcp :: entries.map Entry.name))
      (follows : f.Follows prevcp i (writeRest prevcp i entries)) {fuel : Nat}
    (fuel_gt : entries.length < fuel) : f.readAll fuel = some entries := by
  induction entries generalizing f prevcp i fuel with
  | nil =>
    obtain ⟨fuel, rfl⟩ := Nat.exists_eq_add_one.mpr fuel_gt
    obtain ⟨f', at_end⟩ := getc_nil follows.at_rest
    have ended : f.read = some (none, f') := by rw [read, at_end]
    rw [readAll, ended]
    rfl
  | cons entry entries ih =>
    obtain ⟨fuel, rfl⟩ := Nat.exists_eq_add_one.mpr (Nat.zero_lt_of_lt fuel_gt)
    rw [length_cons] at fuel_gt
    have entry_valid := valid entry mem_cons_self
    have rest_valid : ∀ entry ∈ entries, entry.Valid := fun entry mem =>
      valid entry (.tail _ mem)
    obtain ⟨in_front, rest_first⟩ := pairwise_cons.mp empty_first
    have rest_fuel : entries.length < fuel := by omega
    rw [writeRest] at follows
    split at follows
    · next differ =>
      have name_ne : entry.name ≠ [] := by
        intro empty
        have prev_empty := in_front entry.name mem_cons_self empty
        rw [empty, prev_empty] at differ
        exact differ rfl
      obtain ⟨f', run, follows', -⟩ := read_named entry_valid name_ne follows.at_rest
      have rest_run := ih rest_valid rest_first follows' rest_fuel
      rw [readAll, run]
      simp only [bind_eq_bind, bind_some, rest_run]
    · next same =>
      obtain rfl := strcmp_eq_zero.mp (not_not.mp same)
      obtain ⟨f', run, follows', -⟩ := read_repeated entry_valid follows
      have rest_run := ih rest_valid rest_first follows' rest_fuel
      rw [readAll, run]
      simp only [bind_eq_bind, bind_some, rest_run]

theorem readAll_writeFile {entries : List Entry} (entries_ne : entries ≠ [])
    (valid : ∀ entry ∈ entries, entry.Valid) (empty_first : EmptyFirst (entries.map Entry.name))
    {chunk : Nat} (chunk_pos : 0 < chunk) {fuel : Nat} (fuel_gt : entries.length < fuel) :
    (init chunk (writeFile entries)).readAll fuel = some entries := by
  cases entries with
  | nil => exact absurd rfl entries_ne
  | cons entry entries =>
    have start := init_at chunk_pos (writeFile (entry :: entries))
    have entry_valid := valid entry mem_cons_self
    obtain ⟨fuel, rfl⟩ := Nat.exists_eq_add_one.mpr (Nat.zero_lt_of_lt fuel_gt)
    rw [length_cons] at fuel_gt
    obtain ⟨f', run, follows⟩ : ∃ f', (init chunk (writeFile (entry :: entries))).read =
        some (some entry, f') ∧ f'.Follows entry.name
          (encodeKeyWrite entry.name iscz1Reset entry).1
          (writeRest entry.name (encodeKeyWrite entry.name iscz1Reset entry).1 entries) := by
      by_cases name : entry.name = []
      · -- the empty name counts as that of an entry before the first
        have follows : (init chunk (writeFile (entry :: entries))).Follows entry.name iscz1Reset
            ((encodeKeyWrite [] iscz1Reset entry).2 ++
              writeRest entry.name (encodeKeyWrite entry.name iscz1Reset entry).1 entries) := by
          refine ⟨?_, name.symm, rfl, rfl⟩
          rw [← name]
          exact start
        obtain ⟨f', run, follows', -⟩ := read_repeated entry_valid follows
        exact ⟨f', run, name ▸ follows'⟩
      · obtain ⟨f', run, follows, -⟩ := read_named entry_valid name start
        exact ⟨f', run, follows⟩
    have rest_run := readAll_writeRest (fun entry mem => valid entry (.tail _ mem))
      empty_first follows (show entries.length < fuel by omega)
    rw [readAll, run]
    simp only [bind_eq_bind, bind_some, rest_run]

end KeyFile

end

section

/-- Entries come in order: by name, and by key where the names are the same. -/
def InOrder (e1 e2 : Entry) : Prop :=
  strcmp e1.name e2.name < 0 ∨ e1.name = e2.name ∧ keyCompare e1.key e2.key ≤ 0

theorem inOrder_of_compare {e1 e2 : Entry} (le : keyQsortCompare e1 e2 ≤ 0) : InOrder e1 e2 := by
  rw [keyQsortCompare] at le
  split at le
  · next differ => exact Or.inl (by omega)
  · next same =>
    refine Or.inr ⟨strcmp_eq_zero.mp (not_not.mp same), ?_⟩
    split at le <;> omega

theorem InOrder.empty {e1 e2 : Entry} (order : InOrder e1 e2) (empty : e2.name = []) :
    e1.name = [] := by
  rcases order with lt | ⟨same, -⟩
  · rw [empty] at lt
    cases name : e1.name with
    | nil => rfl
    | cons c name =>
      rw [name] at lt
      cases lt
  · exact same.trans empty

/-- What a file gives is what a part of the calls has put into the buffer. -/
def Gives (part : List Entry) (file : List Byte) : Prop :=
  ∀ chunk, 0 < chunk → ∀ fuel, part.length < fuel →
    ∃ entries, (KeyFile.init chunk file).readAll fuel = some entries ∧ entries.Perm part ∧
      entries.Pairwise InOrder

theorem gives_writeFile {part : List Entry} (part_ne : part ≠ [])
    (valid : ∀ entry ∈ part, entry.Valid) :
      Gives part (writeFile (qsort keyQsortCompare part)) := by
  intro chunk chunk_pos fuel fuel_gt
  have perm := qsort_perm keyQsortCompare part
  have sorted : (qsort keyQsortCompare part).Pairwise InOrder :=
    (keyQsortCompare_comparator.pairwise_qsort part).imp inOrder_of_compare
  refine ⟨qsort keyQsortCompare part, ?_, perm, sorted⟩
  refine KeyFile.readAll_writeFile ?_ (fun entry mem => valid entry (perm.mem_iff.mp mem)) ?_
    chunk_pos (perm.length_eq.trans_lt fuel_gt)
  · intro empty
    exact part_ne (nil_perm.mp (empty ▸ perm))
  · exact pairwise_map.mpr (sorted.imp InOrder.empty)

/-- The files give, one after another, all entries written. -/
def Delivered (files : List (List Byte)) (written : List Entry) : Prop :=
  ∃ parts : List (List Entry), parts.flatten = written ∧ List.Forall₂ Gives parts files

variable {written : List Entry}

theorem Delivered.flushInt {files : List (List Byte)} {entries : List Entry}
    (delivered : Delivered files written) (valid : ∀ entry ∈ entries, entry.Valid) :
    Delivered (flushInt files entries) (written ++ entries.reverse) := by
  obtain ⟨parts, flat, gives⟩ := delivered
  by_cases empty : entries = []
  · refine ⟨parts, ?_, ?_⟩
    · rw [flat, empty, reverse_nil, append_nil]
    · rwa [TempFile.flushInt, if_pos empty]
  · refine ⟨parts ++ [entries.reverse], ?_, ?_⟩
    · rw [flatten_append, flat, flatten_singleton]
    · rw [TempFile.flushInt, if_neg empty]
      refine rel_append gives (.cons ?_ .nil)
      have last := gives_writeFile empty valid
      intro chunk chunk_pos fuel fuel_gt
      obtain ⟨read, run, perm, sorted⟩ := last chunk chunk_pos fuel (by
        rwa [length_reverse] at fuel_gt)
      exact ⟨read, run, perm.trans (reverse_perm entries).symm, sorted⟩

variable {staticRankEnable : Bool}

/-- The entries written so far are in the files or in the buffer. -/
structure Holds (p : KeyBlock) (written : List Entry) : Prop where
  valid : ∀ entry ∈ p.buffer.entries, entry.Valid
  delivered : ∃ before, Delivered p.files before ∧ before ++ p.buffer.entries.reverse = written

theorem Holds.flush {p : KeyBlock} (holds : Holds p written) :
    Holds p.flush written ∧ Delivered p.flush.files written := by
  obtain ⟨before, delivered, rfl⟩ := holds.delivered
  have flushed := delivered.flushInt holds.valid
  exact ⟨⟨forall_mem_nil _, _, flushed, append_nil _⟩, flushed⟩

theorem push_entries {p buffer : Buffer} {entry : Entry} (pushed : p.push entry = some buffer) :
    buffer.entries = entry :: p.entries ∧ buffer.ptrTop = p.ptrTop := by
  rw [Buffer.push] at pushed
  split at pushed
  · cases pushed
    exact ⟨rfl, rfl⟩
  · cases pushed

theorem Holds.write {p p' : KeyBlock} {written : List Entry} (holds : Holds p written) {call : Call}
    (valid : (call.entry staticRankEnable).Valid) (run : p.write staticRankEnable call = some p') :
    Holds p' (written ++ [call.entry staticRankEnable]) := by
  have room : Holds (if p.buffer.nearlyFull then p.flush else p) written := by
    split
    · exact holds.flush.1
    · exact holds
  obtain ⟨before, delivered, rfl⟩ := room.delivered
  obtain ⟨buffer, pushed, rfl⟩ := map_eq_some_iff.mp run
  obtain ⟨entries, -⟩ := push_entries pushed
  refine ⟨?_, before, delivered, ?_⟩
  · dsimp only
    rw [entries]
    exact forall_mem_cons.mpr ⟨valid, room.valid⟩
  · dsimp only
    rw [entries, reverse_cons, append_assoc]

theorem Holds.writes {p p' : KeyBlock} (holds : Holds p written)
    {calls : List Call} (valid : ∀ call ∈ calls, (call.entry staticRankEnable).Valid)
    (run : calls.foldlM (KeyBlock.write staticRankEnable) p = some p') :
    Holds p' (written ++ calls.map (Call.entry staticRankEnable)) := by
  induction calls generalizing p written with
  | nil =>
    cases run
    rwa [map_nil, append_nil]
  | cons call calls ih =>
    rw [foldlM_cons] at run
    obtain ⟨p₁, one, run⟩ := bind_eq_some_iff.mp run
    have first := holds.write (valid call mem_cons_self) one
    have rest := ih first (fun call mem => valid call (.tail _ mem)) run
    rwa [append_assoc, singleton_append] at rest

theorem run_delivered {calls : List Call}
    (valid : ∀ call ∈ calls, (call.entry staticRankEnable).Valid) {buffer : Buffer}
    (empty : buffer.entries = []) {p : KeyBlock}
    (run : KeyBlock.run staticRankEnable { buffer, files := [] } calls = some p) :
    Delivered p.files (calls.map (Call.entry staticRankEnable)) := by
  have start : Holds { buffer, files := [] } [] := by
    refine ⟨?_, [], ⟨[], rfl, .nil⟩, ?_⟩
    · rw [empty]
      exact forall_mem_nil _
    · rw [empty]
      rfl
  obtain ⟨p', writes, rfl⟩ := map_eq_some_iff.mp run
  exact (start.writes valid writes).flush.2

end

end Zebra.TempFile
