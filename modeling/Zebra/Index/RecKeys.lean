import Mathlib.Data.List.Induction
import Mathlib.Data.List.TakeWhile
import Zebra.Keys.KeyOrder

/-!
# The keys of a record

`reckeys.c`: the strings and keys extracted from a record are written one after another into a
buffer, each of them once.  What has been written is found again in a hash table, whose chains have
what was asked for last in front.
-/

namespace Zebra.Reckeys

open List Function

structure Entry where
  buf : List Byte
  key : ItKey
  deriving DecidableEq

/-- `struct zebra_rec_keys_t_`; the buffer is the part of it that is used. -/
structure RecKeys where
  buf : List Byte
  bufMax : Nat
  fetchOffset : Nat
  encodeHandle : CodeInfo
  decodeHandle : CodeInfo
  ownerOfBuffer : Bool
  customRecordId : Nat
  hashSize : Nat
  entries : Nat → List Entry

def zebraRecKeysOpen : RecKeys where
  buf := []
  bufMax := 0
  fetchOffset := 0
  encodeHandle := iscz1Reset
  decodeHandle := iscz1Reset
  ownerOfBuffer := true
  customRecordId := 0
  hashSize := 32767
  entries := fun _ => []

/-- A `char` as a 32-bit number. -/
def signedByte (c : Byte) : Nat := if c < 128 then c else 2 ^ 32 - 256 + c

/-- `zebra_rec_keys_mk_hash`: the number of the chain. -/
def zebraRecKeysMkHash (p : RecKeys) (entry : Entry) : Nat :=
  let h := entry.buf.foldl (fun h c => (h * 65509 + signedByte c) % 2 ^ 32) 0
  let h := entry.key.foldl (fun h component => (h * 65509 + component % 2 ^ 32) % 2 ^ 32) h
  h % p.hashSize

/-- Whether the loop of `zebra_rec_keys_add_hash` takes an entry for the one it looks for. -/
def same (entry e : Entry) : Bool :=
  entry.buf.length = e.buf.length ∧ entry.buf = e.buf ∧ keyCompare entry.key e.key = 0

/-- `zebra_rec_keys_add_hash`: whether the entry is new. -/
def zebraRecKeysAddHash (keys : RecKeys) (entry : Entry) : Bool × RecKeys :=
  let h := zebraRecKeysMkHash keys entry
  match (keys.entries h).find? (same entry) with
  | some e =>
    (false, { keys with
      entries := Function.update keys.entries h (e :: (keys.entries h).eraseP (same entry)) })
  | none =>
    (true, { keys with entries := Function.update keys.entries h (keys.entries h ++ [entry]) })

/-- The buffer is made larger where less than 1024 bytes of it are left. -/
def makeRoom (keys : RecKeys) : RecKeys :=
  if keys.buf.length + 1024 > keys.bufMax then
    { keys with bufMax := keys.bufMax + 128000 } else keys

/-- `zebra_rec_keys_write`; nothing where the assertion fails or the buffer is left. -/
def zebraRecKeysWrite (keys : RecKeys) (entry : Entry) : Option RecKeys :=
  if keys.ownerOfBuffer then
    let keys :=
      if entry.key.getD 1 0 ≠ 0 then { keys with customRecordId := entry.key.getD 1 0 } else keys
    let (isNew, keys) := zebraRecKeysAddHash keys entry
    if isNew then
      let keys := makeRoom keys
      let (encodeHandle, dst) := iscz1Encode keys.encodeHandle entry.key
      let buf := keys.buf ++ dst ++ entry.buf ++ [0]
      if buf.length ≤ keys.bufMax then some { keys with buf, encodeHandle } else none
    else some keys
  else none

def zebraRecKeysReset (keys : RecKeys) : RecKeys :=
  { keys with buf := [], encodeHandle := iscz1Reset, entries := fun _ => [] }

/-- `zebra_rec_keys_get_buf`: the buffer and what is left. -/
def zebraRecKeysGetBuf (keys : RecKeys) : List Byte × RecKeys :=
  (keys.buf, { keys with buf := [], bufMax := 0 })

def zebraRecKeysSetBuf (p : RecKeys) (buf : List Byte) (copyBuf : Bool) : RecKeys :=
  { p with buf, bufMax := buf.length, ownerOfBuffer := copyBuf }

def zebraRecKeysRewind (keys : RecKeys) : Bool × RecKeys :=
  (keys.buf ≠ [], { keys with decodeHandle := iscz1Reset, fetchOffset := 0 })

/-- What a call of `zebra_rec_keys_read` gives. -/
inductive ReadResult where
  /-- It returns 0. -/
  | ended
  /-- It returns 1. -/
  | entry (entry : Entry) (keys : RecKeys)
  /-- The assertion fails, or it reads behind the buffer. -/
  | fault

def zebraRecKeysRead (keys : RecKeys) : ReadResult :=
  if keys.fetchOffset = keys.buf.length then .ended
  else if keys.fetchOffset < keys.buf.length then
    match iscz1Decode keys.decodeHandle (keys.buf.drop keys.fetchOffset) with
    | none => .fault
    | some (key, decodeHandle, src) =>
      let str := src.takeWhile (· ≠ 0)
      if str.length < src.length then
        .entry { buf := str, key }
          { keys with
            decodeHandle
            fetchOffset := keys.buf.length - (src.drop (str.length + 1)).length }
      else .fault
  else .fault

/-- Read until 0; nothing where that does not come within `fuel` reads. -/
def readAll : Nat → RecKeys → Option (List Entry)
  | 0, keys =>
    match zebraRecKeysRead keys with
    | .ended => some []
    | _ => none
  | fuel + 1, keys =>
    match zebraRecKeysRead keys with
    | .ended => some []
    | .entry entry keys => (readAll fuel keys).map (entry :: ·)
    | .fault => none

def writeAll (keys : RecKeys) (entries : List Entry) : Option RecKeys :=
  entries.foldlM zebraRecKeysWrite keys

def itMaxWord : Nat := 512

/-- What `extract_add_string` writes into one buffer: keys of as many levels as are configured, and
terms without a NUL that are not too long. -/
structure Extracted (levels : Nat) (entry : Entry) : Prop where
  valid : entry.key.Valid
  length : entry.key.length = levels
  nonzero : 0 ∉ entry.buf
  short : entry.buf.length ≤ itMaxWord

/-- The state of the coder after entries that are written one after another. -/
def stateAfter (mem : CodeInfo) (entries : List Entry) : CodeInfo :=
  entries.foldl (fun mem entry => (iscz1Encode mem entry.key).1) mem

/-- The bytes of entries that are written one after another. -/
def encodeAll : CodeInfo → List Entry → List Byte
  | _, [] => []
  | mem, entry :: entries =>
    (iscz1Encode mem entry.key).2 ++ entry.buf ++ [0] ++
      encodeAll (iscz1Encode mem entry.key).1 entries

theorem encodeAll_append (mem : CodeInfo) (entries : List Entry) (entry : Entry) :
    encodeAll mem (entries ++ [entry]) =
      encodeAll mem entries ++ (iscz1Encode (stateAfter mem entries) entry.key).2 ++
        entry.buf ++ [0] := by
  induction entries generalizing mem with
  | nil =>
    rw [nil_append, encodeAll, encodeAll, encodeAll, append_nil, nil_append]
    rfl
  | cons first entries induction =>
    have state : stateAfter mem (first :: entries) =
        stateAfter (iscz1Encode mem first.key).1 entries := rfl
    rw [cons_append, encodeAll, induction, encodeAll, state]
    simp only [append_assoc]

theorem length_encode {mem : CodeInfo} (levels : mem.length = itKeyLevelMax) {key : ItKey}
    (valid : key.Valid) : (iscz1Encode mem key).1.length = itKeyLevelMax := by
  have room : key.length ≤ mem.length := levels ▸ valid.le_max
  rw [iscz1Encode_state room, length_append, length_drop]
  omega

/-- The buffer and the table hold the entries. -/
structure Holds (keys : RecKeys) (entries : List Entry) : Prop where
  buf : keys.buf = encodeAll iscz1Reset entries
  encodeHandle : keys.encodeHandle = stateAfter iscz1Reset entries
  levels : keys.encodeHandle.length = itKeyLevelMax
  owner : keys.ownerOfBuffer = true
  room : keys.buf.length ≤ keys.bufMax
  table : ∀ entry, entry ∈ keys.entries (zebraRecKeysMkHash keys entry) ↔ entry ∈ entries
  chains : ∀ h, ∀ entry ∈ keys.entries h, entry ∈ entries

variable {levels : Nat}

/-- Of keys of as many levels those are the same that are equal. -/
theorem same_iff {entry e : Entry} (extracted : Extracted levels entry)
    (extracted' : Extracted levels e) : same entry e = true ↔ entry = e := by
  have length : entry.key.length = e.key.length := extracted.length.trans extracted'.length.symm
  unfold same
  rw [decide_eq_true_iff, keyCompare_eq_zero length]
  constructor
  · rintro ⟨_, buf, key⟩
    cases entry
    cases e
    cases buf
    cases key
    rfl
  · rintro rfl
    exact ⟨rfl, rfl, rfl⟩

/-- The entries that are held when one more has been written. -/
def add (entries : List Entry) (entry : Entry) : List Entry :=
  if entry ∈ entries then entries else entries ++ [entry]

variable {entries : List Entry}

theorem mem_add {entry e : Entry} : e ∈ add entries entry ↔ e ∈ entries ∨ e = entry := by
  unfold add
  split
  case isTrue there => exact ⟨Or.inl, fun either => either.elim id fun eq => eq ▸ there⟩
  case isFalse => rw [mem_append, mem_singleton]

variable {keys : RecKeys}

/-- An entry that is found is moved to the front of its chain, one that is not is put at its end. -/
theorem zebraRecKeysAddHash_spec
    (holds : Holds keys entries) (all : ∀ e ∈ entries, Extracted levels e) {entry : Entry}
    (extracted : Extracted levels entry) :
    ∃ chains, zebraRecKeysAddHash keys entry = (decide (entry ∉ entries), { keys with
        entries := chains }) ∧
      (∀ e, e ∈ chains (zebraRecKeysMkHash keys e) ↔ e ∈ add entries entry) ∧
      ∀ h, ∀ e ∈ chains h, e ∈ add entries entry := by
  have found : ∀ e ∈ keys.entries (zebraRecKeysMkHash keys entry),
      same entry e = true ↔ entry = e := fun e mem =>
    same_iff extracted (all e (holds.chains _ e mem))
  unfold zebraRecKeysAddHash
  dsimp only
  generalize chain_eq : zebraRecKeysMkHash keys entry = h at found
  have chain := holds.table entry
  rw [chain_eq] at chain
  cases search : (keys.entries h).find? (same entry) with
  | some e =>
    have mem := mem_of_find?_eq_some search
    have eq : entry = e := (found e mem).mp (find?_some search)
    subst eq
    have there := chain.mp mem
    have perm : (entry :: (keys.entries h).eraseP (same entry)).Perm (keys.entries h) := by
      obtain ⟨a, front, back, _, found', split, erased⟩ :=
        exists_of_eraseP mem (find?_some search)
      have inChain : a ∈ keys.entries h := by
        rw [split]
        exact mem_append_right _ (mem_cons_self ..)
      rw [erased, split, ← (found a inChain).mp found']
      exact perm_middle.symm
    have known : add entries entry = entries := if_pos there
    rw [known]
    refine ⟨_, by rw [decide_eq_false (not_not.mpr there)], fun e => ?_, fun k e inChain => ?_⟩
    · rcases eq_or_ne (zebraRecKeysMkHash keys e) h with here | other
      · rw [here, update_self, perm.mem_iff, ← here, holds.table]
      · rw [update_of_ne other, holds.table]
    · rcases eq_or_ne k h with rfl | other
      · rw [update_self, perm.mem_iff] at inChain
        exact holds.chains k e inChain
      · rw [update_of_ne other] at inChain
        exact holds.chains k e inChain
  | none =>
    have absent : entry ∉ entries := by
      intro there
      have mem := chain.mpr there
      exact find?_eq_none.mp search entry mem ((found entry mem).mpr rfl)
    refine ⟨_, by rw [decide_eq_true absent], fun e => ?_, fun k e inChain => ?_⟩
    · rw [mem_add]
      rcases eq_or_ne (zebraRecKeysMkHash keys e) h with here | other
      · rw [here, update_self, mem_append, mem_singleton, ← here, holds.table]
      · rw [update_of_ne other, holds.table]
        exact ⟨Or.inl, fun either => either.elim id fun eq => absurd (eq ▸ chain_eq) other⟩
    · rw [mem_add]
      rcases eq_or_ne k h with rfl | other
      · rw [update_self, mem_append, mem_singleton] at inChain
        exact inChain.imp_left (holds.chains k e)
      · rw [update_of_ne other] at inChain
        exact Or.inl (holds.chains k e inChain)

theorem Holds.congr {keys keys' : RecKeys} (holds : Holds keys entries)
    (buf : keys'.buf = keys.buf) (encodeHandle : keys'.encodeHandle = keys.encodeHandle)
    (owner : keys'.ownerOfBuffer = keys.ownerOfBuffer) (room : keys'.buf.length ≤ keys'.bufMax)
    (table : ∀ e, e ∈ keys'.entries (zebraRecKeysMkHash keys' e) ↔ e ∈ entries)
    (chains : ∀ h, ∀ e ∈ keys'.entries h, e ∈ entries) : Holds keys' entries where
  buf := buf.trans holds.buf
  encodeHandle := encodeHandle.trans holds.encodeHandle
  levels := encodeHandle ▸ holds.levels
  owner := owner.trans holds.owner
  room := room
  table := table
  chains := chains

theorem makeRoom_spec (keys : RecKeys) (room : keys.buf.length ≤ keys.bufMax) :
    (makeRoom keys).buf = keys.buf ∧ (makeRoom keys).encodeHandle = keys.encodeHandle ∧
      (makeRoom keys).entries = keys.entries ∧
      (makeRoom keys).ownerOfBuffer = keys.ownerOfBuffer ∧
      keys.buf.length + 1024 ≤ (makeRoom keys).bufMax := by
  unfold makeRoom
  split
  · exact ⟨rfl, rfl, rfl, rfl, by dsimp only; omega⟩
  · exact ⟨rfl, rfl, rfl, rfl, by omega⟩

/-- Writing an entry adds it to those that are held if it is new. -/
theorem Holds.write {keys : RecKeys} {entries : List Entry} {levels : Nat}
    (holds : Holds keys entries) (all : ∀ e ∈ entries, Extracted levels e) {entry : Entry}
    (extracted : Extracted levels entry) :
    ∃ after, zebraRecKeysWrite keys entry = some after ∧ Holds after (add entries entry) := by
  unfold zebraRecKeysWrite
  rw [if_pos holds.owner]
  dsimp only
  generalize custom : (if entry.key.getD 1 0 ≠ 0 then
    { keys with customRecordId := entry.key.getD 1 0 } else keys) = keys₁
  have holds₁ : Holds keys₁ entries := by
    rw [← custom]
    split
    · exact holds.congr rfl rfl rfl holds.room holds.table holds.chains
    · exact holds
  obtain ⟨chains, hashed, table, within⟩ := zebraRecKeysAddHash_spec holds₁ all extracted
  rw [hashed]
  dsimp only
  rcases Classical.em (entry ∈ entries) with there | new
  · have known : add entries entry = entries := if_pos there
    rw [known] at table within
    rw [decide_eq_false (not_not.mpr there), if_neg Bool.false_ne_true, known]
    exact ⟨_, rfl, holds₁.congr rfl rfl rfl holds₁.room table within⟩
  · have grown : add entries entry = entries ++ [entry] := if_neg new
    rw [decide_eq_true new, if_pos rfl]
    obtain ⟨buf, encodeHandle, chains', owner, room⟩ :=
      makeRoom_spec { keys₁ with entries := chains } holds₁.room
    have hash : ∀ e, zebraRecKeysMkHash (makeRoom { keys₁ with entries := chains }) e =
        zebraRecKeysMkHash keys₁ e := by
      intro e
      unfold makeRoom
      split <;> rfl
    generalize makeRoom { keys₁ with entries := chains } = keys₂ at *
    have few := iscz1Encode_length_le extracted.valid
      (show entry.key.length ≤ keys₁.encodeHandle.length from
        holds₁.levels ▸ extracted.valid.le_max)
    have short := extracted.short
    rw [itMaxWord] at short
    have fits : (keys₂.buf ++ (iscz1Encode keys₂.encodeHandle entry.key).2 ++ entry.buf ++
        [0]).length ≤ keys₂.bufMax := by
      rw [length_append, length_append, length_append, encodeHandle,
        length_singleton, buf]
      dsimp only at room ⊢
      omega
    rw [if_pos fits]
    refine ⟨_, rfl, ?_⟩
    dsimp only at buf encodeHandle chains' owner
    have levels := length_encode holds₁.levels extracted.valid
    refine ⟨?_, ?_, ?_, owner.trans holds₁.owner, fits, fun e => ?_, fun h e mem => ?_⟩
    · dsimp only
      rw [buf, encodeHandle, grown, encodeAll_append, ← holds₁.buf, ← holds₁.encodeHandle]
    · dsimp only
      rw [encodeHandle, holds₁.encodeHandle, grown, stateAfter, stateAfter, foldl_append]
      rfl
    · dsimp only
      rw [encodeHandle]
      exact levels
    · have same_hash : zebraRecKeysMkHash { keys₂ with
          buf := keys₂.buf ++ (iscz1Encode keys₂.encodeHandle entry.key).2 ++ entry.buf ++ [0],
          encodeHandle := (iscz1Encode keys₂.encodeHandle entry.key).1 } e =
            zebraRecKeysMkHash keys₁ e := hash e
      rw [same_hash]
      dsimp only
      rw [chains']
      exact table e
    · dsimp only at mem
      rw [chains'] at mem
      exact within h e mem

theorem extracted_add
    (all : ∀ e ∈ entries, Extracted levels e) {entry : Entry} (extracted : Extracted levels entry) :
    ∀ e ∈ add entries entry, Extracted levels e := by
  intro e mem
  rcases mem_add.mp mem with mem | rfl
  · exact all e mem
  · exact extracted

theorem Holds.writeAll
    (holds : Holds keys entries) (all : ∀ e ∈ entries, Extracted levels e) {writes : List Entry}
    (extracted : ∀ e ∈ writes, Extracted levels e) :
    ∃ after, Reckeys.writeAll keys writes = some after ∧
      Holds after (writes.foldl add entries) ∧
      ∀ e ∈ writes.foldl add entries, Extracted levels e := by
  induction writes generalizing keys entries with
  | nil => exact ⟨keys, rfl, holds, all⟩
  | cons entry writes induction =>
    have first := extracted entry (mem_cons_self ..)
    obtain ⟨next, run, holds'⟩ := holds.write all first
    obtain ⟨after, rest, held⟩ := induction holds' (extracted_add all first) fun e mem =>
      extracted e (mem_cons_of_mem _ mem)
    refine ⟨after, ?_, held⟩
    rw [Reckeys.writeAll, foldlM_cons, run]
    exact rest

/-- What is held after all are written are the first of them. -/
theorem foldl_add (writes : List Entry) : writes.foldl add [] = writes.eraseDups := by
  induction writes using reverseRecOn with
  | nil => rfl
  | append_singleton writes entry induction =>
    rw [foldl_append, foldl_cons, foldl_nil, induction, eraseDups_append, add]
    split
    case isTrue there =>
      have known : [entry].removeAll writes = [] := by
        simpa [removeAll] using mem_eraseDups.mp there
      rw [known, eraseDups_nil, append_nil]
    case isFalse new =>
      have fresh : [entry].removeAll writes = [entry] := by
        simpa [removeAll] using fun there => new (mem_eraseDups.mpr there)
      rw [fresh]
      rfl

theorem length_foldl_add (entries writes : List Entry) :
    (writes.foldl add entries).length ≤ entries.length + writes.length := by
  induction writes generalizing entries with
  | nil => exact Nat.le_refl _
  | cons entry writes induction =>
    have rest := induction (add entries entry)
    have one : (add entries entry).length ≤ entries.length + 1 := by
      unfold add
      split
      · exact Nat.le_succ _
      · rw [length_append, length_singleton]
    rw [foldl_cons, length_cons]
    omega

theorem takeWhile_terminated {str : List Byte} (nonzero : 0 ∉ str) (tail : List Byte) :
    (str ++ 0 :: tail).takeWhile (· ≠ 0) = str := by
  have all : ∀ c ∈ str, decide (c ≠ 0) = true := by
    intro c mem
    exact decide_eq_true fun zero => nonzero (zero ▸ mem)
  rw [takeWhile_append_of_pos all, takeWhile_cons_of_neg (by simp), append_nil]

theorem zebraRecKeysRead_eq {front tail : List Byte} {entry : Entry}
    (extracted : Extracted levels entry)
    (buf : keys.buf = front ++ ((iscz1Encode keys.decodeHandle entry.key).2 ++ entry.buf ++ [0] ++
      tail))
    (offset : keys.fetchOffset = front.length)
    (room : keys.decodeHandle.length = itKeyLevelMax) :
    zebraRecKeysRead keys = .entry entry { keys with
      decodeHandle := (iscz1Encode keys.decodeHandle entry.key).1
      fetchOffset := (front ++ ((iscz1Encode keys.decodeHandle entry.key).2 ++ entry.buf ++
        [0])).length } := by
  have length := congrArg List.length buf
  simp only [length_append, length_singleton] at length
  have more : keys.fetchOffset < keys.buf.length := by omega
  have src : keys.buf.drop keys.fetchOffset =
      (iscz1Encode keys.decodeHandle entry.key).2 ++ (entry.buf ++ 0 :: tail) := by
    rw [buf, offset, drop_left]
    simp only [append_assoc, singleton_append]
  have terminated : entry.buf.length < (entry.buf ++ 0 :: tail).length := by
    rw [length_append, length_cons]
    omega
  have behind : (entry.buf ++ 0 :: tail).drop (entry.buf.length + 1) = tail := by
    rw [drop_append, Nat.add_sub_cancel_left, drop_eq_nil_of_le (Nat.le_succ _)]
    rfl
  unfold zebraRecKeysRead
  rw [if_neg more.ne, if_pos more, src, iscz1Decode_encode extracted.valid room]
  dsimp only
  rw [takeWhile_terminated extracted.nonzero, if_pos terminated, behind]
  have place : keys.buf.length - tail.length =
      (front ++ ((iscz1Encode keys.decodeHandle entry.key).2 ++ entry.buf ++ [0])).length := by
    simp only [length_append, length_singleton]
    omega
  rw [place]

theorem readAll_encodeAll (all : ∀ e ∈ entries, Extracted levels e) {front : List Byte}
    (buf : keys.buf = front ++ encodeAll keys.decodeHandle entries)
    (offset : keys.fetchOffset = front.length)
    (room : keys.decodeHandle.length = itKeyLevelMax) {fuel : Nat}
    (enough : entries.length ≤ fuel) : readAll fuel keys = some entries := by
  induction entries generalizing keys front fuel with
  | nil =>
    have ended : zebraRecKeysRead keys = .ended := by
      rw [encodeAll, append_nil] at buf
      exact if_pos (by rw [offset, buf])
    cases fuel with
    | zero => rw [readAll, ended]
    | succ fuel => rw [readAll, ended]
  | cons entry entries induction =>
    cases fuel with
    | zero => cases enough
    | succ fuel =>
      have first := all entry (mem_cons_self ..)
      rw [encodeAll] at buf
      rw [readAll, zebraRecKeysRead_eq first buf offset room]
      dsimp only
      rw [induction (fun e mem => all e (mem_cons_of_mem _ mem)) _ rfl
        (length_encode room first.valid) (Nat.le_of_succ_le_succ enough)]
      · rfl
      · dsimp only
        rw [buf]
        simp only [append_assoc]

/-- What is held is read from the buffer, in whatever object it is. -/
theorem Holds.readAll
    (holds : Holds keys entries) (all : ∀ e ∈ entries, Extracted levels e) (other : RecKeys)
    (buf : other.buf = keys.buf) {fuel : Nat} (enough : entries.length ≤ fuel) :
    Reckeys.readAll fuel (zebraRecKeysRewind other).2 = some entries := by
  have start : (zebraRecKeysRewind other).2.buf =
      [] ++ encodeAll (zebraRecKeysRewind other).2.decodeHandle entries := buf.trans holds.buf
  exact readAll_encodeAll all start rfl rfl enough

/-- Whatever is written after a reset: reading from the start gives each entry once, in the order in
which they have been written first; also from another object that the buffer has been handed to. -/
theorem rec_keys_first_writes (keys : RecKeys) (owner : keys.ownerOfBuffer = true) (levels : Nat)
    (writes : List Entry) (extracted : ∀ entry ∈ writes, Extracted levels entry) :
    ∃ after, writeAll (zebraRecKeysReset keys) writes = some after ∧
      readAll writes.length (zebraRecKeysRewind after).2 = some writes.eraseDups ∧
      ∀ (other : RecKeys) (copyBuf : Bool),
        readAll writes.length (zebraRecKeysRewind
          (zebraRecKeysSetBuf other (zebraRecKeysGetBuf after).1 copyBuf)).2 =
            some writes.eraseDups := by
  have start : Holds (zebraRecKeysReset keys) [] := by
    refine ⟨rfl, rfl, rfl, owner, Nat.zero_le _, fun entry => ?_, fun h entry mem => ?_⟩
    · exact Iff.rfl
    · exact mem
  obtain ⟨after, run, holds, all⟩ := start.writeAll (fun _ mem => by cases mem) extracted
  have few := length_foldl_add [] writes
  rw [foldl_add] at holds all few
  rw [length_nil, Nat.zero_add] at few
  refine ⟨after, run, holds.readAll all after rfl few, fun other copyBuf => ?_⟩
  exact holds.readAll all (zebraRecKeysSetBuf other (zebraRecKeysGetBuf after).1 copyBuf) rfl few

theorem rec_keys_first_writes_three :
    ∃ after, writeAll (zebraRecKeysReset zebraRecKeysOpen)
        [⟨[97], [1, 0, 0, 1]⟩, ⟨[98], [1, 0, 0, 2]⟩, ⟨[97], [1, 0, 0, 1]⟩] = some after ∧
      readAll 3 (zebraRecKeysRewind after).2 =
        some ([⟨[97], [1, 0, 0, 1]⟩, ⟨[98], [1, 0, 0, 2]⟩, ⟨[97], [1, 0, 0, 1]⟩] :
          List Entry).eraseDups ∧
      ∀ (other : RecKeys) (copyBuf : Bool),
        readAll 3 (zebraRecKeysRewind
          (zebraRecKeysSetBuf other (zebraRecKeysGetBuf after).1 copyBuf)).2 =
            some ([⟨[97], [1, 0, 0, 1]⟩, ⟨[98], [1, 0, 0, 2]⟩, ⟨[97], [1, 0, 0, 1]⟩] :
              List Entry).eraseDups := by
  apply rec_keys_first_writes zebraRecKeysOpen rfl 4
  intro entry mem
  simp only [mem_cons, not_mem_nil, or_false] at mem
  rcases mem with rfl | rfl | rfl
  all_goals exact ⟨by decide, rfl, by decide, by decide⟩

end Zebra.Reckeys
