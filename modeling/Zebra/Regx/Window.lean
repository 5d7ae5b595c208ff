import Mathlib.Data.List.GetD
import Mathlib.Data.List.TakeDrop
import Zebra.Lib.Varint

/-!
# The window over the file

`f_win_get` and `f_win_advance`: the filter sees its file through a buffer, which is moved along the
file as bytes are asked for.
-/

namespace Zebra.Regx

open List

def fWinEof : Int := 2000000000

/-- The conversion of an `off_t` to `int` -/
def toInt (x : Int) : Int := x.bmod (2 ^ 32)

/-- The fields of `struct lexSpec` for the window, and the position of the stream; the buffer is
given as far as bytes have been read into it. -/
structure Window where
  fWinStart : Int
  fWinEnd : Int
  fWinSize : Nat
  fWinBuf : List Byte
  offset : Nat

/-- `f_win_rf`, with as many bytes as are available -/
def readf (file : List Byte) (offset count : Nat) : List Byte := (file.drop offset).take count

/-- `f_win_get`: the bytes from the returned pointer on, and `*size` -/
def fWinGet (file : List Byte) (w : Window) (startPos endPos : Int) : Window × List Byte × Int :=
  let off := toInt (startPos - w.fWinStart)
  if off ≥ 0 ∧ endPos ≤ w.fWinEnd then
    (w, w.fWinBuf.drop off.toNat, toInt (endPos - startPos))
  else if off < 0 ∨ startPos ≥ w.fWinEnd then
    let r := readf file startPos.toNat w.fWinSize
    ({ w with
        fWinStart := toInt startPos
        fWinEnd := toInt (toInt startPos + r.length)
        fWinBuf := r
        offset := startPos.toNat + r.length },
      r, if r.length > endPos - startPos then toInt (endPos - startPos) else r.length)
  else
    -- the tail of the buffer moves down, and what the stream has next comes behind it
    let i := (w.fWinEnd - startPos).toNat
    let r := readf file w.offset (w.fWinSize - i)
    let buf := (w.fWinBuf.drop off.toNat).take i ++ r
    ({ w with
        fWinStart := toInt startPos
        fWinEnd := toInt (w.fWinEnd + r.length)
        fWinBuf := buf
        offset := w.offset + r.length },
      buf, if (i : Int) + r.length > endPos - startPos then toInt (endPos - startPos)
        else (i : Int) + r.length)

/-- `f_win_advance`: the new position, and the byte -/
def fWinAdvance (file : List Byte) (w : Window) (pos : Int) : Window × Int × Byte :=
  if pos ≥ w.fWinStart ∧ pos < w.fWinEnd then
    (w, pos + 1, w.fWinBuf.getD (pos - w.fWinStart).toNat 0)
  else if pos = fWinEof then (w, pos, 0)
  else
    let (w, buf, size) := fWinGet file w pos (pos + 1)
    if size = 1 then (w, pos + 1, buf.headD 0) else (w, fWinEof, 0)

inductive Call where
  | get (startPos endPos : Int)
  | advance (pos : Int)

/-- What a call gives: the bytes with their number, or the position with the byte -/
inductive Answer where
  | bytes (bytes : List Byte) (size : Int)
  | byte (pos : Int) (c : Byte)
  deriving DecidableEq

def call (file : List Byte) (w : Window) : Call → Window × Answer
  | .get startPos endPos =>
    let (w, buf, size) := fWinGet file w startPos endPos
    (w, .bytes (buf.take size.toNat) size)
  | .advance pos =>
    let (w, pos, c) := fWinAdvance file w pos
    (w, .byte pos c)

def calls (file : List Byte) (w : Window) : List Call → Window × List Answer
  | [] => (w, [])
  | c :: rest =>
    let (w, answer) := call file w c
    let (w, answers) := calls file w rest
    (w, answer :: answers)

def openWindow (fWinSize : Nat) : Window :=
  { fWinStart := 0, fWinEnd := 0, fWinSize, fWinBuf := [], offset := 0 }

variable {file : List Byte} {w : Window}

/-- What a call would give with the whole file in memory -/
def answer (file : List Byte) : Call → Answer
  | .get startPos endPos =>
    let bytes := (file.drop startPos.toNat).take (endPos - startPos).toNat
    .bytes bytes bytes.length
  | .advance pos =>
    if pos < file.length then .byte (pos + 1) (file.getD pos.toNat 0) else .byte fWinEof 0

/-- Calls ask for no more than the window's size; positions are `int` in all callers. -/
def Call.Valid (fWinSize : Nat) : Call → Prop
  | .get startPos endPos => 0 ≤ startPos ∧ startPos ≤ endPos ∧ endPos - startPos ≤ fWinSize ∧
      endPos < 2 ^ 31
  | .advance pos => 0 ≤ pos ∧ pos + 1 < 2 ^ 31

/-- The window describes which bytes of the file the buffer has, and where the stream stands. -/
structure Describes (file : List Byte) (w : Window) : Prop where
  start_nonneg : 0 ≤ w.fWinStart
  start_lt : w.fWinStart < 2 ^ 31
  buf : w.fWinBuf = (file.drop w.fWinStart.toNat).take w.fWinBuf.length
  winEnd : w.fWinEnd = w.fWinStart + w.fWinBuf.length
  offset : (w.offset : Int) = w.fWinEnd
  length_le : w.fWinBuf.length ≤ w.fWinSize

theorem toInt_eq {x : Int} (low : -2 ^ 31 ≤ x) (high : x < 2 ^ 31) : toInt x = x := by
  rw [toInt, Int.bmod_eq_of_le] <;> omega

theorem readf_length (offset count : Nat) :
    (readf file offset count).length = min count (file.length - offset) := by
  rw [readf, length_take, length_drop]

theorem Describes.end_le (describes : Describes file w) (some_byte : w.fWinBuf ≠ []) :
    w.fWinEnd ≤ file.length := by
  have length := congrArg List.length describes.buf
  have positive := length_pos_iff.mpr some_byte
  have start := describes.start_nonneg
  rw [length_take, length_drop] at length
  rw [describes.winEnd]
  omega

theorem describes_read {startPos : Nat} (small : startPos < 2 ^ 31)
    (read : w.fWinBuf = readf file startPos w.fWinSize) (start : w.fWinStart = startPos)
    (winEnd : w.fWinEnd = startPos + w.fWinBuf.length)
    (offset : w.offset = startPos + w.fWinBuf.length) : Describes file w := by
  have length := @readf_length file startPos w.fWinSize
  rw [← read] at length
  refine ⟨by omega, by omega, ?_, by omega, by omega, by omega⟩
  rw [start, Int.toNat_natCast, length]
  refine read.trans ?_
  rw [readf, take_eq_take_iff, length_drop]
  omega

/-- What is asked for, of bytes that were read from `startPos` on -/
theorem take_read {startPos count : Nat} {asked : Int} (nonneg : 0 ≤ asked) (le : asked ≤ count)
    (fits : asked < 2 ^ 31) :
    let size := if ((readf file startPos count).length : Int) > asked then toInt asked
      else (readf file startPos count).length
    (readf file startPos count).take size.toNat = (file.drop startPos).take asked.toNat ∧
      size = ((file.drop startPos).take asked.toNat).length := by
  have length := @readf_length file startPos count
  dsimp only
  rw [length_take, length_drop, toInt_eq (by omega) fits]
  split
  · refine ⟨?_, by omega⟩
    rw [readf, take_take, min_eq_left (by omega)]
  · refine ⟨?_, by omega⟩
    rw [Int.toNat_natCast, take_length, readf, take_eq_take_iff, length_drop]
    omega

/-- Every request gives the bytes of the file, and keeps the description right. -/
theorem fWinGet_spec (describes : Describes file w) (short : (file.length : Int) < fWinEof)
    {startPos endPos : Int} (nonneg : 0 ≤ startPos) (order : startPos ≤ endPos)
    (le : endPos - startPos ≤ w.fWinSize) (fits : endPos < 2 ^ 31) :
    ∃ w' buf size, fWinGet file w startPos endPos = (w', buf, size) ∧ Describes file w' ∧
      w'.fWinSize = w.fWinSize ∧
      buf.take size.toNat = (file.drop startPos.toNat).take (endPos - startPos).toNat ∧
      size = ((file.drop startPos.toNat).take (endPos - startPos).toNat).length := by
  obtain ⟨begins, rfl⟩ := Int.eq_ofNat_of_zero_le nonneg
  have start_nonneg := describes.start_nonneg
  have start_lt := describes.start_lt
  have winEnd := describes.winEnd
  have off_eq : toInt (begins - w.fWinStart) = begins - w.fWinStart :=
    toInt_eq (by omega) (by omega)
  have eof : fWinEof = 2000000000 := rfl
  rw [fWinGet, off_eq, Int.toNat_natCast]
  dsimp only
  by_cases inside : (begins : Int) - w.fWinStart ≥ 0 ∧ endPos ≤ w.fWinEnd
  · rw [if_pos inside]
    refine ⟨w, _, _, rfl, describes, rfl, ?_⟩
    rw [toInt_eq (by omega) (by omega), length_take, length_drop]
    have place : w.fWinStart.toNat + ((begins : Int) - w.fWinStart).toNat = begins := by omega
    constructor
    · rw [describes.buf, drop_take, drop_drop, place, take_take,
        min_eq_left (by omega)]
    · by_cases empty : w.fWinBuf = []
      · rw [empty, length_nil] at winEnd
        omega
      · have end_le := describes.end_le empty
        omega
  · rw [if_neg inside]
    have asked := @take_read file begins w.fWinSize (endPos - begins) (by omega) le (by omega)
    have length := @readf_length file begins w.fWinSize
    by_cases outside : (begins : Int) - w.fWinStart < 0 ∨ (begins : Int) ≥ w.fWinEnd
    · rw [if_pos outside]
      refine ⟨_, _, _, rfl, describes_read (by omega : begins < 2 ^ 31) rfl ?_ ?_ rfl, rfl, asked⟩
      · dsimp only
        rw [toInt_eq (by omega) (by omega)]
      · dsimp only
        rw [toInt_eq (x := begins) (by omega) (by omega), toInt_eq (by omega) (by omega)]
    · rw [if_neg outside]
      have nonempty : w.fWinBuf ≠ [] := by
        intro empty
        rw [empty, length_nil] at winEnd
        omega
      have end_le := describes.end_le nonempty
      have offset := describes.offset
      have length_le := describes.length_le
      have moved : (w.fWinBuf.drop ((begins : Int) - w.fWinStart).toNat).take
          (w.fWinEnd - begins).toNat ++ readf file w.offset
            (w.fWinSize - (w.fWinEnd - begins).toNat) =
            readf file begins w.fWinSize := by
        have place : w.fWinStart.toNat + ((begins : Int) - w.fWinStart).toNat = begins := by omega
        have behind : w.offset = begins + (w.fWinEnd - begins).toNat := by omega
        have whole : w.fWinSize =
            (w.fWinEnd - begins).toNat + (w.fWinSize - (w.fWinEnd - begins).toNat) := by omega
        rw [describes.buf, drop_take, drop_drop, place, take_take,
          min_eq_left (by omega), behind]
        conv_rhs => rw [whole]
        rw [readf, readf, take_add, drop_drop]
      have parts := congrArg List.length moved
      rw [length_append, length_take, length_drop] at parts
      have size_eq : ((w.fWinEnd - begins).toNat : Int) +
          (readf file w.offset (w.fWinSize - (w.fWinEnd - begins).toNat)).length =
            (readf file begins w.fWinSize).length := by omega
      rw [moved, size_eq]
      refine ⟨_, _, _, rfl, describes_read (by omega : begins < 2 ^ 31) rfl ?_ ?_ ?_, rfl, asked⟩
      · dsimp only
        rw [toInt_eq (by omega) (by omega)]
      · dsimp only
        rw [toInt_eq (by omega) (by omega)]
        omega
      · dsimp only
        omega

/-- A byte is read wherever the window is, and the end of the file is met at its size. -/
theorem fWinAdvance_spec (describes : Describes file w) (short : (file.length : Int) < fWinEof)
    (room : 0 < w.fWinSize) {pos : Int} (nonneg : 0 ≤ pos) (fits : pos + 1 < 2 ^ 31) :
    ∃ w' pos' c, fWinAdvance file w pos = (w', pos', c) ∧ Describes file w' ∧
      w'.fWinSize = w.fWinSize ∧ answer file (.advance pos) = .byte pos' c := by
  obtain ⟨place, rfl⟩ := Int.eq_ofNat_of_zero_le nonneg
  rw [fWinAdvance, answer, Int.toNat_natCast]
  by_cases inside : (place : Int) ≥ w.fWinStart ∧ (place : Int) < w.fWinEnd
  · rw [if_pos inside]
    have start_nonneg := describes.start_nonneg
    have winEnd := describes.winEnd
    have nonempty : w.fWinBuf ≠ [] := by
      intro empty
      rw [empty, length_nil] at winEnd
      omega
    have end_le := describes.end_le nonempty
    refine ⟨w, _, _, rfl, describes, rfl, ?_⟩
    have whole : w.fWinStart.toNat + ((place : Int) - w.fWinStart).toNat = place := by omega
    rw [if_pos (by omega), describes.buf, getD_eq_getElem?_getD, getD_eq_getElem?_getD,
      List.getElem?_take_of_lt (by omega), List.getElem?_drop, whole]
  · rw [if_neg inside]
    by_cases eof : (place : Int) = fWinEof
    · rw [if_pos eof, if_neg (by omega), eof]
      exact ⟨w, _, _, rfl, describes, rfl, rfl⟩
    · rw [if_neg eof]
      obtain ⟨w', buf, size, run, describes', size_eq, bytes, number⟩ :=
        fWinGet_spec describes short nonneg (by omega : (place : Int) ≤ place + 1) (by omega) fits
      have one : ((place : Int) + 1 - place).toNat = 1 := by omega
      rw [one, Int.toNat_natCast] at bytes number
      rw [run]
      dsimp only
      by_cases there : place < file.length
      · have byte : (file.drop place).take 1 = [file[place]] := by
          rw [drop_eq_getElem_cons there]
          rfl
        rw [byte] at bytes number
        rw [length_singleton] at number
        have size_one : size = 1 := number
        rw [if_pos size_one, if_pos (by omega)]
        refine ⟨w', _, _, rfl, describes', size_eq, ?_⟩
        rw [size_one] at bytes
        have head : buf.headD 0 = file[place] := by
          cases buf with
          | nil => cases bytes
          | cons c buf => exact (List.cons.inj bytes).1
        rw [head, getD_eq_getElem _ _ there]
      · have none : (file.drop place).take 1 = [] := by
          rw [drop_eq_nil_of_le (not_lt.mp there), take_nil]
        rw [none, length_nil] at number
        rw [if_neg (by omega), if_neg (by omega)]
        exact ⟨w', _, _, rfl, describes', size_eq, rfl⟩

/-- A call gives what the whole file in memory would give. -/
theorem call_spec (describes : Describes file w) (short : (file.length : Int) < fWinEof)
    (room : 0 < w.fWinSize) {c : Call} (valid : c.Valid w.fWinSize) :
    ∃ w', call file w c = (w', answer file c) ∧ Describes file w' ∧ w'.fWinSize = w.fWinSize := by
  cases c with
  | get startPos endPos =>
    obtain ⟨nonneg, order, le, fits⟩ := valid
    obtain ⟨w', buf, size, run, describes', size_eq, bytes, number⟩ :=
      fWinGet_spec describes short nonneg order le fits
    refine ⟨w', ?_, describes', size_eq⟩
    rw [call, run]
    dsimp only
    rw [bytes, answer, number]
  | advance pos =>
    obtain ⟨nonneg, fits⟩ := valid
    obtain ⟨w', pos', c, run, describes', size_eq, same⟩ :=
      fWinAdvance_spec describes short room nonneg fits
    exact ⟨w', by rw [call, run, same], describes', size_eq⟩

theorem calls_spec (describes : Describes file w) (short : (file.length : Int) < fWinEof)
    (room : 0 < w.fWinSize) {cs : List Call} (valid : ∀ c ∈ cs, c.Valid w.fWinSize) :
    (calls file w cs).2 = cs.map (answer file) ∧ Describes file (calls file w cs).1 := by
  induction cs generalizing w with
  | nil => exact ⟨rfl, describes⟩
  | cons c cs ih =>
    obtain ⟨first, rest⟩ := forall_mem_cons.mp valid
    obtain ⟨w', run, describes', size_eq⟩ := call_spec describes short room first
    obtain ⟨answers, describes''⟩ := ih describes' (size_eq ▸ room) (size_eq ▸ rest)
    rw [calls, run]
    exact ⟨congrArg (answer file c :: ·) answers, describes''⟩

/-- From the beginning of a file on, every sequence of calls gives what the whole file in memory
would give, and the window describes its buffer and the stream all the time. -/
theorem window_transparent (short : (file.length : Int) < fWinEof) {fWinSize : Nat}
    (room : 0 < fWinSize) {cs : List Call} (valid : ∀ c ∈ cs, c.Valid fWinSize) :
    (calls file (openWindow fWinSize) cs).2 = cs.map (answer file) ∧
      Describes file (calls file (openWindow fWinSize) cs).1 :=
  calls_spec ⟨le_refl _,
    show (0 : Int) < 2 ^ 31 by decide, rfl, rfl, rfl, Nat.zero_le _⟩ short room valid

/-- Forwards over the end of a window of two bytes, and back -/
theorem window_transparent_back :
    (calls [97, 98, 99] (openWindow 2) [.advance 0, .get 1 3, .get 0 1, .advance 3]).2 =
        [.byte 1 97, .bytes [98, 99] 2, .bytes [97] 1, .byte 2000000000 0] ∧
      Describes [97, 98, 99]
        (calls [97, 98, 99] (openWindow 2) [.advance 0, .get 1 3, .get 0 1, .advance 3]).1 :=
  window_transparent (by decide) (by decide) (by simp [Call.Valid])

end Zebra.Regx
