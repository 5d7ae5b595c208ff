import Mathlib.Data.List.Lex
import Zebra.Lib.Varint

/-!
# Posting keys and their delta code

`it_key.c`: a key is a short vector of numbers, compared level by level, and stored by `iscz1` as
the difference to the key before it.  The coder state is the component array of the last key; a
leader byte tells the first level that differs, the key length, and whether that level is stored
as a difference.
-/

namespace Zebra

open List Option

/-- The components `mem[0..len)` of a `struct it_key`; its length is the field `len`. -/
abbrev ItKey := List Nat

def itKeyLevelMax : Nat := 5

/-- A key as the coder's assertion and the sign of its components demand. -/
structure ItKey.Valid (key : ItKey) : Prop where
  pos : 0 < key.length
  /-- The key has at most `IT_KEY_LEVEL_MAX` levels. -/
  le_max : key.length ≤ itKeyLevelMax
  small : ∀ component ∈ key, component < 2 ^ 63

instance ItKey.decidableValid (key : ItKey) : Decidable key.Valid :=
  decidable_of_iff
    (0 < key.length ∧ key.length ≤ itKeyLevelMax ∧ ∀ component ∈ key, component < 2 ^ 63)
    ⟨fun ⟨pos, le_max, small⟩ => ⟨pos, le_max, small⟩,
      fun valid => ⟨valid.pos, valid.le_max, valid.small⟩⟩

/-- The loop of `key_compare` with `l - i` levels still to look at. -/
def keyCompareFrom : Nat → ItKey → ItKey → Int
  | 0, _, _ => 0
  | rest + 1, i1, i2 =>
    if i1.headD 0 = i2.headD 0 then keyCompareFrom rest i1.tail i2.tail
    else if i1.headD 0 > i2.headD 0 then (rest + 1 : Nat)
    else -((rest + 1 : Nat) : Int)

/-- Exchanged keys compare the other way. -/
theorem keyCompareFrom_swap (n : Nat) (i1 i2 : ItKey) :
    keyCompareFrom n i2 i1 = -keyCompareFrom n i1 i2 := by
  induction n generalizing i1 i2 with
  | zero => rfl
  | succ n ih =>
    have tails := ih i1.tail i2.tail
    simp only [keyCompareFrom]
    split <;> split <;> (try split) <;> omega

/-- Compare two keys; the magnitude tells how many levels are left at the first difference. -/
def keyCompare (i1 i2 : ItKey) : Int := keyCompareFrom (max i1.length i2.length) i1 i2

/-- `iscz1_code_info`: the array `key.mem`. -/
abbrev CodeInfo := List Nat

def iscz1Reset : CodeInfo := replicate itKeyLevelMax 0

def iscz1EncodeInt (d : Nat) : List Byte := Varint.encode d

/-- `iscz1_decode_int`; the result is a 64-bit number. -/
def iscz1DecodeInt (src : List Byte) : Option (Nat × List Byte) :=
  (Varint.decode src).map fun (d, src) => (d % 2 ^ 64, src)

/-- The loops of `iscz1_encode` from level `i` on: the components left of the key and of the state
go in, the state's components from there on and the bytes written come out. -/
def iscz1EncodeFrom (len : Nat) : Nat → ItKey → CodeInfo → CodeInfo × List Byte
  | i, t :: ts, p :: ps =>
    if t ≠ p ∨ ts = [] then
      -- all have been equal until now: a growing level is stored as a difference
      if p < t then
        (t :: ts ++ ps.drop ts.length,
          iscz1EncodeInt (i + len * 8 + 64) ++ iscz1EncodeInt (t - p) ++
            ts.flatMap iscz1EncodeInt)
      else
        (t :: ts ++ ps.drop ts.length,
          iscz1EncodeInt (i + len * 8) ++ (t :: ts).flatMap iscz1EncodeInt)
    else
      let (mem, dst) := iscz1EncodeFrom len (i + 1) ts ps
      (p :: mem, dst)
  | _, _, mem => (mem, [])

/-- `iscz1_encode`: the new state and the bytes written. -/
def iscz1Encode (p : CodeInfo) (tkey : ItKey) : CodeInfo × List Byte :=
  iscz1EncodeFrom tkey.length 0 tkey p

/-- `while (++i < p->key.len)` of `iscz1_decode`: read `count` components into levels `i`,
`i + 1`, ... -/
def iscz1DecodeRest : Nat → Nat → CodeInfo → List Byte → Option (CodeInfo × List Byte)
  | 0, _, mem, src => some (mem, src)
  | count + 1, i, mem, src => do
      let (value, src) ← iscz1DecodeInt src
      iscz1DecodeRest count (i + 1) (mem.set i value) src

/-- `iscz1_decode`: the key, the new state and the bytes behind the key. -/
def iscz1Decode (mem : CodeInfo) (src : List Byte) : Option (ItKey × CodeInfo × List Byte) := do
  let (leader, src) ← iscz1DecodeInt src
  let i := leader % 8
  let (value, src) ← iscz1DecodeInt src
  let value := if leader / 64 % 2 = 1 then (mem.getD i 0 + value) % 2 ^ 64 else value
  let len := leader / 8 % 8
  let (mem, src) ← iscz1DecodeRest (len - (i + 1)) (i + 1) (mem.set i value) src
  some (mem.take len, mem, src)

theorem iscz1DecodeInt_encodeInt {d : Nat} (small : d < 2 ^ 64) (tail : List Byte) :
    iscz1DecodeInt (iscz1EncodeInt d ++ tail) = some (d, tail) := by
  simp only [iscz1DecodeInt, iscz1EncodeInt, Varint.decode_encode, map_some,
    Nat.mod_eq_of_lt small]

theorem iscz1DecodeRest_encode (ts : List Nat) (small : ∀ t ∈ ts, t < 2 ^ 63) (front ps : CodeInfo)
    (room : ts.length ≤ ps.length) (tail : List Byte) :
    iscz1DecodeRest ts.length front.length (front ++ ps) (ts.flatMap iscz1EncodeInt ++ tail) =
      some (front ++ ts ++ ps.drop ts.length, tail) := by
  induction ts generalizing front ps with
  | nil => simp [iscz1DecodeRest]
  | cons t ts ih =>
    obtain ⟨p, ps, rfl⟩ : ∃ p rest, ps = p :: rest :=
      exists_cons_of_length_pos (by simp at room; omega)
    have t_small : t < 2 ^ 64 := (small t mem_cons_self).trans (by omega)
    have step := ih (fun u mem => small u (by simp [mem])) (front ++ [t]) ps (by simpa using room)
    simpa [iscz1DecodeRest, iscz1DecodeInt_encodeInt t_small, append_assoc] using step

/-- The leader byte names the level, the length and the kind of the first component. -/
theorem leader_fields (i len flag : Nat) (i_lt : i < 5) (len_le : len ≤ 5) (flag_le : flag ≤ 1) :
    (i + len * 8 + 64 * flag) % 8 = i ∧ (i + len * 8 + 64 * flag) / 8 % 8 = len ∧
      (i + len * 8 + 64 * flag) / 64 % 2 = flag := by
  omega

/-- Decoding a leader, the first stored component and the absolute components behind it. -/
theorem iscz1Decode_leader (front ps : CodeInfo) (p value : Nat) (ts : List Nat) (flag : Nat)
    (flag_le : flag ≤ 1) (value_small : value < 2 ^ 63) (small : ∀ t ∈ ts, t < 2 ^ 63)
    (room : ts.length ≤ ps.length) (levels : front.length + (ts.length + 1) ≤ 5)
    (tail : List Byte) :
    let first := if flag = 1 then (p + value) % 2 ^ 64 else value
    iscz1Decode (front ++ p :: ps)
        (iscz1EncodeInt (front.length + (front.length + (ts.length + 1)) * 8 + 64 * flag) ++
          (iscz1EncodeInt value ++ (ts.flatMap iscz1EncodeInt ++ tail))) =
      some (front ++ first :: ts, front ++ first :: ts ++ ps.drop ts.length, tail) := by
  intro first
  obtain ⟨level, len, kind⟩ := leader_fields front.length (front.length + (ts.length + 1)) flag
    (by omega) levels flag_le
  have count : front.length + (ts.length + 1) - (front.length + 1) = ts.length := by omega
  have first_eq :
      (if flag = 1 then ((front ++ p :: ps).getD front.length 0 + value) % 2 ^ 64 else value) =
        first := by
    simp [first]
  have set_eq : (front ++ p :: ps).set front.length first = (front ++ [first]) ++ ps := by
    simp
  have rest := iscz1DecodeRest_encode ts small (front ++ [first]) ps room tail
  rw [length_append, length_singleton] at rest
  rw [iscz1Decode, iscz1DecodeInt_encodeInt (by omega), bind_eq_bind, bind_some]
  simp only [iscz1DecodeInt_encodeInt (show value < 2 ^ 64 by omega), bind_eq_bind,
    bind_some, level, len, kind, count, first_eq, set_eq, rest]
  have take_front : front.take (front.length + (ts.length + 1)) = front :=
    take_of_length_le (by omega)
  simp [take_append, take_front]

theorem iscz1Decode_encodeFrom {ts : List Nat} (ts_ne : ts ≠ []) (small : ∀ t ∈ ts, t < 2 ^ 63)
    (front ps : CodeInfo) (room : ts.length ≤ ps.length)
    (levels : front.length + ts.length ≤ 5) (tail : List Byte) :
    let coded := iscz1EncodeFrom (front.length + ts.length) front.length ts ps
    iscz1Decode (front ++ ps) (coded.2 ++ tail) = some (front ++ ts, front ++ coded.1, tail) := by
  induction ts generalizing front ps with
  | nil => exact absurd rfl ts_ne
  | cons t ts ih =>
    obtain ⟨p, ps, rfl⟩ : ∃ p rest, ps = p :: rest :=
      exists_cons_of_length_pos (by simp at room; omega)
    have t_small : t < 2 ^ 63 := small t mem_cons_self
    have ts_small : ∀ u ∈ ts, u < 2 ^ 63 := fun u mem => small u (mem_cons_of_mem t mem)
    have room' : ts.length ≤ ps.length := by simpa using room
    rw [length_cons] at levels
    simp only [length_cons, iscz1EncodeFrom]
    split
    · -- the first level that differs, or the last one
      split
      · next grows =>
        have sum : (p + (t - p)) % 2 ^ 64 = t := by omega
        have read := iscz1Decode_leader front ps p (t - p) ts 1 le_rfl (by omega)
          ts_small room' levels tail
        simpa only [if_true, sum, Nat.mul_one, append_assoc, cons_append] using read
      · have read := iscz1Decode_leader front ps p t ts 0 (by omega) t_small
          ts_small room' levels tail
        simpa only [Nat.zero_ne_one, if_false, Nat.mul_zero, Nat.add_zero, flatMap_cons,
          append_assoc, cons_append] using read
    · next same =>
      obtain ⟨rfl, ts_ne'⟩ : t = p ∧ ts ≠ [] := by simpa using same
      have length_eq : (front ++ [t]).length + ts.length = front.length + (ts.length + 1) := by
        simp only [length_append, length_singleton]
        omega
      have step := ih ts_ne' ts_small (front ++ [t]) ps room' (by omega)
      rw [length_eq, length_append, length_singleton] at step
      simpa only [append_assoc, singleton_append] using step

/-- Decoding one key inverts encoding it and leaves both coders in the same state. -/
theorem iscz1Decode_encode {key : ItKey} (valid : key.Valid) {mem : CodeInfo}
    (levels : mem.length = itKeyLevelMax) (tail : List Byte) :
    iscz1Decode mem ((iscz1Encode mem key).2 ++ tail) =
      some (key, (iscz1Encode mem key).1, tail) := by
  have key_ne : key ≠ [] := ne_nil_of_length_pos valid.pos
  have room : key.length ≤ mem.length := levels ▸ valid.le_max
  simpa [iscz1Encode] using
    iscz1Decode_encodeFrom key_ne valid.small [] mem room
      (by simpa [itKeyLevelMax] using valid.le_max) tail

/-- The state after a key holds that key and keeps what longer keys left behind it. -/
theorem iscz1EncodeFrom_state (len i : Nat) (ts : List Nat) (ps : CodeInfo)
    (room : ts.length ≤ ps.length) :
    (iscz1EncodeFrom len i ts ps).1 = ts ++ ps.drop ts.length := by
  induction ts generalizing i ps with
  | nil => simp [iscz1EncodeFrom]
  | cons t ts ih =>
    obtain ⟨p, ps, rfl⟩ : ∃ p rest, ps = p :: rest :=
      exists_cons_of_length_pos (by simp at room; omega)
    simp only [iscz1EncodeFrom]
    split
    · split <;> simp
    · next same =>
      obtain ⟨rfl, -⟩ : t = p ∧ ts ≠ [] := by simpa using same
      simp [ih (i + 1) ps (by simpa using room)]

theorem iscz1Encode_state {key : ItKey} {mem : CodeInfo} (room : key.length ≤ mem.length) :
    (iscz1Encode mem key).1 = key ++ mem.drop key.length :=
  iscz1EncodeFrom_state key.length 0 key mem room

/-- Encode keys one after another: for each key its bytes and the state after it. -/
def iscz1EncodeStream : CodeInfo → List ItKey → List (List Byte × CodeInfo)
  | _, [] => []
  | mem, key :: keys =>
    let (mem, dst) := iscz1Encode mem key
    (dst, mem) :: iscz1EncodeStream mem keys

/-- Decode `count` keys one after another: for each key its value, the number of bytes it took and
the state after it; and the bytes behind the last one. -/
def iscz1DecodeStream : Nat → CodeInfo → List Byte →
    Option (List (ItKey × Nat × CodeInfo) × List Byte)
  | 0, _, src => some ([], src)
  | count + 1, mem, src => do
      let (key, mem, rest) ← iscz1Decode mem src
      let (keys, last) ← iscz1DecodeStream count mem rest
      some ((key, src.length - rest.length, mem) :: keys, last)

/-- A whole stream reads back key by key: the same keys, each from exactly the bytes written for
it, with the decoder's state equal to the encoder's after every key. -/
theorem iscz1DecodeStream_encodeStream_from (keys : List ItKey)
    (valid : ∀ key ∈ keys, key.Valid) {mem : CodeInfo} (levels : mem.length = itKeyLevelMax)
    (tail : List Byte) :
    iscz1DecodeStream keys.length mem
        ((iscz1EncodeStream mem keys).flatMap Prod.fst ++ tail) =
      some (zipWith (fun key coded => (key, coded.1.length, coded.2)) keys
        (iscz1EncodeStream mem keys), tail) := by
  induction keys generalizing mem with
  | nil => rfl
  | cons key keys ih =>
    have key_valid : key.Valid := valid key mem_cons_self
    have room : key.length ≤ mem.length := levels ▸ key_valid.le_max
    have next_levels : (iscz1Encode mem key).1.length = itKeyLevelMax := by
      rw [iscz1Encode_state room]
      simp
      omega
    have rest := ih (fun k mem => valid k (mem_cons_of_mem key mem)) next_levels
    simp only [length_cons, iscz1DecodeStream, iscz1EncodeStream, flatMap_cons,
      append_assoc, iscz1Decode_encode key_valid levels, bind_eq_bind,
      bind_some, rest, zipWith_cons_cons]
    simp

/-- `iscz1` is invertible over whole streams from reset coders. -/
theorem iscz1_stream_roundtrip (keys : List ItKey) (valid : ∀ key ∈ keys, key.Valid) :
    iscz1DecodeStream keys.length iscz1Reset
        ((iscz1EncodeStream iscz1Reset keys).flatMap Prod.fst) =
      some (zipWith (fun key coded => (key, coded.1.length, coded.2)) keys
        (iscz1EncodeStream iscz1Reset keys), []) := by
  simpa using
    iscz1DecodeStream_encodeStream_from keys valid (rfl : iscz1Reset.length = itKeyLevelMax) []

/-- Keys of different lengths, the second one sharing two levels with the first. -/
theorem iscz1_stream_roundtrip_three :
    iscz1DecodeStream 3 iscz1Reset
        ((iscz1EncodeStream iscz1Reset [[3, 2, 9, 12], [3, 2, 10, 2], [4, 1]]).flatMap Prod.fst) =
      some (zipWith (fun key coded => (key, coded.1.length, coded.2))
        [[3, 2, 9, 12], [3, 2, 10, 2], [4, 1]]
        (iscz1EncodeStream iscz1Reset [[3, 2, 9, 12], [3, 2, 10, 2], [4, 1]]), []) :=
  iscz1_stream_roundtrip [[3, 2, 9, 12], [3, 2, 10, 2], [4, 1]] (by decide)

end Zebra
