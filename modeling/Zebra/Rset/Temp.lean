import Mathlib.Data.List.Basic
import Mathlib.Tactic.Cases

/-!
# Temporary result sets

`rstemp.c`: a set that is written once and read by many.  All readers and the writer share a window
over the set; a file is made when the window is too small.  As long as the window is dirty, it holds
all that is not in the file, and moving it writes it there first, so each reader finds what was
written.
-/

namespace Zebra.Rset.Temp

open List Option

/-- `memcpy` into a buffer, or `lseek` and `write` on a file. -/
def overwrite (dst : List Nat) (pos : Nat) (src : List Nat) : List Nat :=
  dst.take pos ++ replicate (pos - dst.length) 0 ++ src ++ dst.drop (pos + src.length)

/-- `memcpy` from a buffer, or `lseek` and `read` on a file, which may give less. -/
def sub (src : List Nat) (pos count : Nat) : List Nat := (src.drop pos).take count

/-- `struct rset_private`, with the temporary file, `none` as long as it has no name. -/
structure RsetPrivate where
  fd : Option Bool
  file : Option (List Nat)
  bufMem : List Nat
  bufSize : Nat
  posEnd : Nat
  posBuf : Nat
  posBorder : Nat
  dirty : Bool
  hits : Nat
  /-- How many are open. -/
  inUse : Nat

/-- `rset_create_temp`, with a window of any size; where the window ends is not set yet. -/
def rsetCreateTemp (bufSize : Nat) (bufMem : List Nat) (posBorder : Nat) : RsetPrivate where
  fd := none
  file := none
  bufMem := bufMem
  bufSize := bufSize
  posEnd := 0
  posBuf := 0
  posBorder := posBorder
  dirty := false
  hits := 0
  inUse := 0

/-- `r_flush`; it gives nothing where the source exits. -/
def rFlush (mk : Bool) (info : RsetPrivate) : Option RsetPrivate :=
  let info := if info.file = none ∧ mk then { info with file := some [], fd := some true } else info
  match info.file, info.fd with
  | some file, some writable =>
    if info.dirty then
      let count := min info.bufSize (info.posEnd - info.posBuf)
      if writable then
        some { info with
          file := some (overwrite file info.posBuf (sub info.bufMem 0 count))
          dirty := false }
      else none
    else some info
  | _, _ => some info

def rReread (posCur : Nat) (info : RsetPrivate) : Option RsetPrivate :=
  match info.file with
  | some file =>
    let border := min (posCur + info.bufSize) info.posEnd
    let count := border - info.posBuf
    if 0 < count then
      let data := sub file info.posBuf count
      if info.fd = none ∨ data.length < count then none
      else some { info with bufMem := overwrite info.bufMem 0 data, posBorder := border }
    else some { info with posBorder := border }
  | none => some { info with posBorder := info.posEnd }

/-- `r_open`; the position of the new reader is 0. -/
def rOpen (write : Bool) (info : RsetPrivate) : Option RsetPrivate :=
  let info := if info.fd = none ∧ info.file ≠ none then { info with fd := some write } else info
  (rFlush false info).bind fun info =>
    (rReread 0 { info with posBuf := 0 }).map fun info => { info with inUse := info.inUse + 1 }

def rClose (info : RsetPrivate) : Option RsetPrivate :=
  if info.inUse = 1 then
    (rFlush false info).map fun info =>
      { info with fd := if info.file = none then info.fd else none, inUse := 0 }
  else some { info with inUse := info.inUse - 1 }

/-- `r_read` with a reader at `posCur`: the key or the end, and the reader's position then. -/
def rRead (keySize posCur : Nat) (info : RsetPrivate) :
    Option (Option (List Nat) × Nat × RsetPrivate) :=
  let nc := posCur + keySize
  let give := fun info : RsetPrivate => (some (sub info.bufMem (posCur - info.posBuf) keySize),
      nc, info)
  if posCur < info.posBuf ∨ info.posBorder < nc then
    if info.posEnd < nc then some (none, posCur, info)
    else (rFlush false info).bind fun info =>
      (rReread posCur { info with posBuf := posCur }).map give
  else some (give info)

/-- `r_write` with a writer at `posCur`. -/
def rWrite (keySize posCur : Nat) (buf : List Nat) (info : RsetPrivate) :
    Option (Nat × RsetPrivate) :=
  let nc := posCur + keySize
  let moved :=
    if info.posBuf + info.bufSize < nc then
      (rFlush true info).bind fun info =>
        let info := { info with posBuf := posCur }
        if info.posBuf < info.posEnd then rReread posCur info else some info
    else some info
  moved.map fun info =>
    let info := { info with
      dirty := true
      bufMem := overwrite info.bufMem (posCur - info.posBuf) buf }
    let info := if info.posEnd < nc then { info with posBorder := nc, posEnd := nc } else info
    (nc, { info with hits := info.hits + 1 })

def writeKeys (keySize : Nat) : List (List Nat) → Nat → RsetPrivate → Option (Nat × RsetPrivate)
  | [], posCur, info => some (posCur, info)
  | key :: keys, posCur, info =>
    (rWrite keySize posCur key info).bind fun r => writeKeys keySize keys r.1 r.2

def writeAll (keySize : Nat) (keys : List (List Nat)) (close : Bool) (info : RsetPrivate) :
    Option RsetPrivate :=
  (rOpen true info).bind fun info =>
    (writeKeys keySize keys 0 info).bind fun r => if close then rClose r.2 else some r.2

/-- What readers do, each by its number. -/
inductive Call where
  | openNext
  | read (reader : Nat)
  | close (reader : Nat)

/-- A call with the positions of the readers; what is closed has none. -/
def call (keySize : Nat) (c : Call) (readers : List (Option Nat)) (info : RsetPrivate) :
    Option (Option (List Nat) × List (Option Nat) × RsetPrivate) :=
  match c with
  | .openNext => (rOpen false info).map fun info => (none, readers ++ [some 0], info)
  | .read reader =>
    (readers[reader]?.join).bind fun posCur =>
      (rRead keySize posCur info).map fun r => (r.1, readers.set reader (some r.2.1), r.2.2)
  | .close reader =>
    (readers[reader]?.join).bind fun _ =>
      (rClose info).map fun info => (none, readers.set reader none, info)

/-- The calls of the readers, and what each of them gives. -/
def serve (keySize : Nat) : List Call → List (Option Nat) → RsetPrivate →
    Option (List (Option (List Nat)))
  | [], _, _ => some []
  | c :: calls, readers, info =>
    (call keySize c readers info).bind fun r =>
      (serve keySize calls r.2.1 r.2.2).map (r.1 :: ·)

/-- The same calls on an array that all readers go through, each at its place. -/
def arrayCall (keys : List (List Nat)) (c : Call) (readers : List (Option Nat)) :
    Option (Option (List Nat) × List (Option Nat)) :=
  match c with
  | .openNext => some (none, readers ++ [some 0])
  | .read reader =>
    (readers[reader]?.join).map fun place =>
      (keys[place]?, readers.set reader (some (if place < keys.length then place + 1 else place)))
  | .close reader => (readers[reader]?.join).map fun _ => (none, readers.set reader none)

def arrayServe (keys : List (List Nat)) : List Call → List (Option Nat) →
    Option (List (Option (List Nat)))
  | [], _ => some []
  | c :: calls, readers =>
    (arrayCall keys c readers).bind fun r => (arrayServe keys calls r.2).map (r.1 :: ·)

theorem sub_sub {src : List Nat} {p n a k : Nat} (inside : a + k ≤ n) :
    sub (sub src p n) a k = sub src (p + a) k := by
  rw [sub, sub, sub, drop_take, take_take, drop_drop, Nat.min_eq_left (by omega)]

theorem sub_zero_length (src : List Nat) : sub src 0 src.length = src := by
  rw [sub, drop_zero, take_length]

theorem length_sub {src : List Nat} {pos count : Nat} (inside : pos + count ≤ src.length) :
    (sub src pos count).length = count := by
  rw [sub, length_take, length_drop]
  omega

theorem sub_overwrite {dst src front : List Nat} {pos : Nat} (has : sub dst 0 pos = front)
    (length : front.length = pos) :
    sub (overwrite dst pos src) 0 (pos + src.length) = front ++ src := by
  rw [sub, drop_zero] at has
  have none : pos - dst.length = 0 := by
    have := congrArg List.length has
    rw [length_take] at this
    omega
  rw [sub, overwrite, has, none, replicate_zero, append_nil, drop_zero,
    take_append_of_le_length]
  · rw [take_of_length_le]
    rw [length_append]
    omega
  · rw [length_append]
    omega

theorem overwrite_end (file src : List Nat) : overwrite file file.length src = file ++ src := by
  rw [overwrite, take_length, Nat.sub_self, replicate_zero, append_nil,
    drop_eq_nil_of_le (by omega), append_nil]

theorem overwrite_zero_front (dst src : List Nat) :
    sub (overwrite dst 0 src) 0 src.length = src := by
  have front := @sub_overwrite dst src [] 0 (by simp [sub]) rfl
  rwa [Nat.zero_add, nil_append] at front

/-- The window has its part of the set, and the file, if there is one, what is not in the window. -/
structure Holds (info : RsetPrivate) (data : List Nat) : Prop where
  posEnd : info.posEnd = data.length
  window : sub info.bufMem 0 (info.posBorder - info.posBuf) =
    sub data info.posBuf (info.posBorder - info.posBuf)
  inside : info.posBuf ≤ info.posBorder ∧ info.posBorder ≤ data.length
  fits : info.posBorder - info.posBuf ≤ info.bufSize
  whole : info.file = none → info.posBuf = 0 ∧ info.posBorder = data.length ∧
    (info.dirty = false → data = [])
  clean : ∀ file, info.file = some file → info.dirty = false → file = data
  unflushed : ∀ file, info.file = some file → info.dirty = true →
    file = data.take info.posBuf ∧ info.posBorder = data.length ∧ info.fd = some true
  opened : info.file ≠ none → 0 < info.inUse → info.fd ≠ none

/-- All of the set is in the file, or there is no file and it is in the window. -/
structure Flushed (info : RsetPrivate) (data : List Nat) : Prop where
  posEnd : info.posEnd = data.length
  whole : info.file = none → sub info.bufMem 0 data.length = data ∧ data.length ≤ info.bufSize ∧
    (info.dirty = false → data = [])
  clean : ∀ file, info.file = some file → file = data ∧ info.dirty = false

variable {info : RsetPrivate} {data : List Nat}

theorem Holds.flushed (holds : Holds info data)
    (clean : info.file ≠ none → info.dirty = false) : Flushed info data where
  posEnd := holds.posEnd
  whole none := by
    obtain ⟨zero, all, empty⟩ := holds.whole none
    have window := holds.window
    have fits := holds.fits
    rw [zero, all, Nat.sub_zero] at window fits
    exact ⟨window.trans (sub_zero_length data), fits, empty⟩
  clean file is :=
    have same := clean (by rw [is]; exact some_ne_none file)
    ⟨holds.clean file is same, same⟩

theorem Holds.flush_file (holds : Holds info data) {file : List Nat} (is : info.file = some file)
    (dirty : info.dirty = true) :
    overwrite file info.posBuf (sub info.bufMem 0 (min info.bufSize (info.posEnd - info.posBuf))) =
      data := by
  obtain ⟨same, border, -⟩ := holds.unflushed file is dirty
  have fits := holds.fits
  have window := holds.window
  have inside := holds.inside
  rw [holds.posEnd, ← border, Nat.min_eq_right fits, window, same]
  have length : (data.take info.posBuf).length = info.posBuf := by
    rw [length_take]
    omega
  have at_end := overwrite_end (data.take info.posBuf) (sub data info.posBuf
    (info.posBorder - info.posBuf))
  rw [length] at at_end
  rw [at_end, sub, border, ← length_drop, take_length, take_append_drop]

/-- What a flush leaves as it is. -/
structure SameWindow (info info' : RsetPrivate) : Prop where
  fd : info'.fd = info.fd
  bufSize : info'.bufSize = info.bufSize
  posBuf : info'.posBuf = info.posBuf
  posBorder : info'.posBorder = info.posBorder
  hits : info'.hits = info.hits
  inUse : info'.inUse = info.inUse
  file : info'.file = none ↔ info.file = none

theorem SameWindow.refl (info : RsetPrivate) : SameWindow info info :=
  ⟨rfl, rfl, rfl, rfl, rfl, rfl, Iff.rfl⟩

theorem Holds.exists_rFlush (holds : Holds info data) :
    ∃ info', rFlush false info = some info' ∧ Holds info' data ∧ SameWindow info info' ∧
      (info'.file ≠ none → info'.dirty = false) := by
  have same : (if info.file = none ∧
      false = true then { info with file := some [], fd := some true }
      else info) = info := if_neg fun mk => Bool.false_ne_true mk.2
  rw [rFlush, same]
  cases is : info.file with
  | none => exact ⟨info, rfl, holds, .refl info, fun some => absurd is some⟩
  | some file =>
    cases dirty : info.dirty with
    | false =>
      refine ⟨info, ?_, holds, .refl info, fun _ => dirty⟩
      cases info.fd <;> rfl
    | true =>
      have complete := holds.flush_file is dirty
      obtain ⟨-, -, writable⟩ := holds.unflushed file is dirty
      rw [writable]
      refine ⟨_, rfl, ⟨holds.posEnd, holds.window, holds.inside, holds.fits, ?_, ?_, ?_, ?_⟩,
        ⟨writable.symm, rfl, rfl, rfl, rfl, rfl, ?_⟩, fun _ => rfl⟩
      · exact fun none => absurd none (some_ne_none _)
      · rintro _ ⟨⟩ -
        exact complete
      · exact fun _ _ wrong => absurd wrong Bool.false_ne_true
      · exact fun _ _ => writable ▸ some_ne_none _
      · exact iff_of_false (some_ne_none _) (is ▸ some_ne_none _)

theorem Flushed.exists_rReread {posCur : Nat} (flushed : Flushed info data)
    (start : info.posBuf = posCur) (inside : posCur ≤ data.length)
    (zero : info.file = none → posCur = 0)
    (opened : info.file ≠ none → 0 < info.inUse → info.fd ≠ none)
    (ready : info.file ≠ none → info.fd ≠ none ∨ data.length ≤ posCur) :
    ∃ info', rReread posCur info = some info' ∧ Holds info' data ∧
      info'.posBorder = (if info.file = none then data.length
        else min (posCur + info.bufSize) data.length) ∧
      info'.posBuf = posCur ∧ info'.fd = info.fd ∧ info'.bufSize = info.bufSize ∧
      info'.hits = info.hits ∧ info'.inUse = info.inUse ∧ info'.file = info.file ∧
      info'.dirty = info.dirty := by
  subst start
  obtain ⟨fd, file, bufMem, bufSize, posEnd, posBuf, posBorder, dirty, hits, inUse⟩ := info
  obtain rfl : posEnd = data.length := flushed.posEnd
  cases file with
  | none =>
    obtain ⟨window, fits, empty⟩ := flushed.whole rfl
    obtain rfl : posBuf = 0 := zero rfl
    refine ⟨_, rfl, ⟨rfl, ?_, ⟨Nat.zero_le _, Nat.le_refl _⟩, fits,
      fun _ => ⟨rfl, rfl, empty⟩, ?_, ?_,
      opened⟩, rfl, rfl, rfl, rfl, rfl, rfl, rfl, rfl⟩
    · exact window.trans (sub_zero_length data).symm
    · exact fun file wrong => absurd wrong (by simp)
    · exact fun file wrong => absurd wrong (by simp)
  | some file =>
    obtain ⟨rfl, clean⟩ := flushed.clean file rfl
    obtain rfl : dirty = false := clean
    have fresh : ∀ bufMem border, border = min (posBuf + bufSize) file.length →
        sub bufMem 0 (border - posBuf) = sub file posBuf (border - posBuf) →
        Holds ⟨fd, some file, bufMem, bufSize, file.length, posBuf, border, false, hits, inUse⟩
          file := by
      intro bufMem border same window
      have inside : posBuf ≤ file.length := inside
      have bounds : posBuf ≤ border ∧ border ≤ file.length := by omega
      have fits : border - posBuf ≤ bufSize := by omega
      refine ⟨rfl, window, bounds, fits, fun none => absurd none (some_ne_none _), ?_, ?_,
        opened⟩
      · exact fun other is _ => (some.inj is).symm
      · exact fun _ _ wrong => absurd wrong Bool.false_ne_true
    simp only [rReread]
    split
    next more =>
      have not_closed : fd ≠ none := (ready (some_ne_none _)).resolve_right (by
        change ¬ file.length ≤ posBuf
        omega)
      have length : (sub file posBuf (min (posBuf + bufSize) file.length - posBuf)).length =
          min (posBuf + bufSize) file.length - posBuf := length_sub (by omega)
      rw [if_neg (not_or.mpr ⟨not_closed, by omega⟩)]
      refine ⟨_, rfl, fresh _ _ rfl ?_, rfl, rfl, rfl, rfl, rfl, rfl, rfl, rfl⟩
      have front := overwrite_zero_front bufMem
        (sub file posBuf (min (posBuf + bufSize) file.length - posBuf))
      rwa [length] at front
    next no_more =>
      refine ⟨_, rfl, fresh bufMem _ rfl ?_, rfl, rfl, rfl, rfl, rfl, rfl, rfl, rfl⟩
      rw [Nat.eq_zero_of_not_pos no_more, sub, sub, take_zero, take_zero]

theorem Holds.setInUse (holds : Holds info data) (inUse : Nat)
    (opened : info.file ≠ none → info.fd ≠ none) :
    Holds { info with inUse := inUse } data :=
  ⟨holds.posEnd, holds.window, holds.inside, holds.fits, holds.whole, holds.clean, holds.unflushed,
    fun some _ => opened some⟩

theorem Holds.setFd (holds : Holds info data) (write : Bool) (closed : info.fd = none) :
    Holds { info with fd := some write } data :=
  ⟨holds.posEnd, holds.window, holds.inside, holds.fits, holds.whole, holds.clean,
    fun file is dirty => absurd (closed.symm.trans (holds.unflushed file is dirty).2.2) (by simp),
    fun _ _ => some_ne_none write⟩

theorem Holds.exists_move {posCur : Nat} (holds : Holds info data) (inside : posCur ≤ data.length)
    (zero : info.file = none → posCur = 0) (opened : info.file ≠ none → info.fd ≠ none) :
    ∃ info', ((rFlush false info).bind fun info => rReread posCur { info with posBuf := posCur }) =
        some info' ∧ Holds info' data ∧ info'.posBuf = posCur ∧
      info'.posBorder = (if info.file = none then data.length
        else min (posCur + info.bufSize) data.length) ∧
      info'.fd = info.fd ∧ info'.bufSize = info.bufSize ∧ info'.hits = info.hits ∧
      info'.inUse = info.inUse ∧ (info'.file = none ↔ info.file = none) := by
  obtain ⟨info', run, holds', same, clean⟩ := holds.exists_rFlush
  have opened' : info'.file ≠ none → info'.fd ≠ none := fun some => by
    rw [same.fd]
    exact opened (mt same.file.mpr some)
  have flushed := holds'.flushed clean
  have moved : Flushed { info' with posBuf := posCur } data :=
    ⟨flushed.posEnd, flushed.whole, flushed.clean⟩
  obtain ⟨info'', run', holds'', border, start, fd, bufSize, hits, inUse, file, -⟩ :=
    moved.exists_rReread rfl inside (fun none => zero (same.file.mp none))
      (fun some _ => opened' some) (fun some => .inl (opened' some))
  refine ⟨info'', by rw [run]; exact run', holds'', start, ?_, fd.trans same.fd,
    bufSize.trans same.bufSize, hits.trans same.hits, inUse.trans same.inUse, ?_⟩
  · rw [border]
    simp only [same.file, same.bufSize]
  · rw [file]
    exact same.file

theorem bind_map {α β γ : Type} {x : Option α} {f : α → Option β} {b : β} (run : x.bind f = some b)
    (g : β → γ) : (x.bind fun a => (f a).map g) = some (g b) := by
  have mapped := congrArg (Option.map g) run
  rwa [Option.map_bind] at mapped

theorem Holds.exists_rOpen (holds : Holds info data) (write : Bool) :
    ∃ info', rOpen write info = some info' ∧ Holds info' data ∧ info'.bufSize = info.bufSize ∧
      info'.hits = info.hits ∧ info'.inUse = info.inUse + 1 ∧
      (info'.file = none ↔ info.file = none) ∧
      (info.file = none → info'.posBorder = data.length) ∧
        (info'.file ≠ none → info'.fd ≠ none) := by
  rw [rOpen]
  generalize is : (if info.fd = none ∧ info.file ≠ none then { info with fd := some write }
    else info) = opened
  have facts : Holds opened data ∧ (opened.file ≠ none → opened.fd ≠ none) ∧
      opened.bufSize = info.bufSize ∧ opened.hits = info.hits ∧ opened.inUse = info.inUse ∧
      opened.file = info.file := by
    split at is
    next closed =>
      subst is
      exact ⟨holds.setFd write closed.1, fun _ => some_ne_none write, rfl, rfl, rfl, rfl⟩
    next open_ =>
      subst is
      exact ⟨holds, fun some none => open_ ⟨none, some⟩, rfl, rfl, rfl, rfl⟩
  obtain ⟨holds, ready, bufSize, hits, inUse, file⟩ := facts
  obtain ⟨info', run, holds', -, border, fd, bufSize', hits', inUse', file'⟩ :=
    holds.exists_move (Nat.zero_le _) (fun _ => rfl) ready
  have ready' : info'.file ≠ none → info'.fd ≠ none := fun some => by
    rw [fd]
    exact ready (mt file'.mpr some)
  refine ⟨{ info' with inUse := info'.inUse + 1 }, ?_, holds'.setInUse _ ready',
    bufSize'.trans bufSize,
    hits'.trans hits, congrArg (· + 1) (inUse'.trans inUse), file ▸ file', ?_, ready'⟩
  · exact bind_map run _
  · intro none
    rw [border, if_pos (file.trans none)]

theorem Holds.exists_rClose (holds : Holds info data) (used : 0 < info.inUse) :
    ∃ info', rClose info = some info' ∧ Holds info' data ∧ info'.bufSize = info.bufSize ∧
      info'.hits = info.hits ∧ info'.inUse = info.inUse - 1 := by
  rw [rClose]
  split
  next last =>
    obtain ⟨info', run, holds', same, clean⟩ := holds.exists_rFlush
    let closed := { info' with fd := if info'.file = none then info'.fd else none, inUse := 0 }
    have no_window : ∀ file, info'.file = some file → info'.dirty ≠ true := by
      intro file is dirty
      have none : info'.file ≠ none := is ▸ some_ne_none file
      exact absurd ((clean none).symm.trans dirty) Bool.false_ne_true
    have holds'' : Holds closed data :=
      ⟨holds'.posEnd, holds'.window, holds'.inside, holds'.fits, holds'.whole, holds'.clean,
        fun file is dirty => absurd dirty (no_window file is),
        fun _ used => absurd used (Nat.lt_irrefl 0)⟩
    exact ⟨closed, by rw [run]; rfl, holds'', same.bufSize, same.hits, by rw [last]⟩
  next more =>
    exact ⟨_, rfl, holds.setInUse _ fun file => holds.opened file used, rfl, rfl, rfl⟩

theorem Holds.exists_rRead {keySize posCur : Nat} (holds : Holds info data) (used : 0 < info.inUse)
    (positive : 0 < keySize) (fits : keySize ≤ info.bufSize) :
    ∃ info', rRead keySize posCur info = some
        (if posCur + keySize ≤ data.length then
          (some (sub data posCur keySize), posCur + keySize, info')
        else (none, posCur, info')) ∧
      Holds info' data ∧ info'.bufSize = info.bufSize ∧ info'.hits = info.hits ∧
      info'.inUse = info.inUse := by
  rw [rRead, holds.posEnd]
  have inside := holds.inside
  by_cases ends : posCur + keySize ≤ data.length
  · have more : ¬ data.length < posCur + keySize := by omega
    simp only [if_pos ends, if_neg more]
    split
    next outside =>
      have zero : info.file = none → posCur = 0 := fun none => by
        obtain ⟨start, border, -⟩ := holds.whole none
        omega
      obtain ⟨info', run, holds', start, border, fd, bufSize, hits, inUse, file⟩ :=
        holds.exists_move (by omega) zero fun file => holds.opened file used
      have reaches : posCur + keySize ≤ info'.posBorder := by
        rw [border]
        split <;> omega
      refine ⟨info', ?_, holds', bufSize, hits, inUse⟩
      rw [bind_map run, start, Nat.sub_self]
      have given := @sub_sub info'.bufMem 0 (info'.posBorder - info'.posBuf) 0 keySize (by omega)
      rw [holds'.window, start, sub_sub (by omega)] at given
      rw [Nat.zero_add] at given
      rw [← given]
      rfl
    next within =>
      refine ⟨info, ?_, holds, rfl, rfl, rfl⟩
      have given := @sub_sub info.bufMem 0 (info.posBorder - info.posBuf) (posCur - info.posBuf)
        keySize (by omega)
      rw [holds.window, sub_sub (by omega), Nat.zero_add] at given
      rw [← given, show info.posBuf + (posCur - info.posBuf) = posCur by omega]
  · refine ⟨info, ?_, holds, rfl, rfl, rfl⟩
    rw [if_neg ends, if_pos (by omega : data.length < posCur + keySize), if_pos (.inr (by omega))]

/-- The window of a writer that is at the end of the set. -/
structure Writing (info : RsetPrivate) (data : List Nat) : Prop where
  holds : Holds info data
  border : info.posBorder = data.length
  writable : info.file ≠ none → info.fd = some true
  inUse : 0 < info.inUse
  dirty : info.file ≠ none → info.dirty = true

/-- `r_flush` when the window is full: there is a file then, and it has all. -/
theorem Writing.exists_rFlush (writing : Writing info data) :
    ∃ info', rFlush true info = some info' ∧ info'.file = some data ∧ info'.fd = some true ∧
      info'.posEnd = data.length ∧ info'.posBorder = data.length ∧ info'.bufSize = info.bufSize ∧
      info'.hits = info.hits ∧ info'.inUse = info.inUse := by
  obtain ⟨holds, border, writable, used, dirty⟩ := writing
  cases is : info.file with
  | none =>
    obtain ⟨zero, -, empty⟩ := holds.whole is
    have window := holds.window
    have fits := holds.fits
    rw [zero, border, Nat.sub_zero, sub_zero_length] at window
    rw [zero, border, Nat.sub_zero] at fits
    rw [rFlush, if_pos ⟨is, rfl⟩]
    cases dirty : info.dirty with
    | false =>
      exact ⟨_, rfl, congrArg some (empty dirty).symm, rfl, holds.posEnd, border, rfl, rfl, rfl⟩
    | true =>
      refine ⟨_, rfl, congrArg some ?_, rfl, holds.posEnd, border, rfl, rfl, rfl⟩
      have at_end := overwrite_end [] data
      rw [holds.posEnd, zero, Nat.sub_zero, Nat.min_eq_right fits, window]
      exact at_end
  | some file =>
    have open_ := writable (is ▸ some_ne_none file)
    have other : ¬ (info.file = none ∧ true = true) := fun none =>
      absurd (is.symm.trans none.1) (some_ne_none file)
    have dirty := dirty (is ▸ some_ne_none file)
    have complete := holds.flush_file is dirty
    rw [rFlush, if_neg other, open_]
    simp only [is, dirty, if_true]
    exact ⟨_, rfl, congrArg some complete, rfl, holds.posEnd, border, rfl, rfl, rfl⟩

/-- `r_write` behind the set -/
theorem Writing.exists_rWrite {keySize : Nat} {key : List Nat} (writing : Writing info data)
    (size : key.length = keySize) (positive : 0 < keySize) (fits : keySize ≤ info.bufSize) :
    ∃ info', rWrite keySize data.length key info = some (data.length + keySize, info') ∧
      Writing info' (data ++ key) ∧ info'.bufSize = info.bufSize ∧ info'.hits = info.hits + 1 := by
  subst size
  obtain ⟨holds, border, writable, used, dirty⟩ := id writing
  have inside := holds.inside
  have window_fits := holds.fits
  rw [rWrite]
  split
  next full =>
    obtain ⟨info', run, file, fd, posEnd, border', bufSize, hits, inUse⟩ := writing.exists_rFlush
    have at_end : ¬ data.length < info'.posEnd := by omega
    have grows : info'.posEnd < data.length + key.length := by omega
    have front := overwrite_zero_front info'.bufMem key
    simp only [run, bind_some, if_neg at_end, map_some, Nat.sub_self, if_pos grows]
    refine ⟨_, rfl, ⟨⟨?_, ?_, ?_, ?_, ?_, ?_, ?_, ?_⟩, ?_, ?_, ?_, fun _ => rfl⟩, bufSize,
      congrArg (· + 1) hits⟩
    · exact length_append.symm
    · simp only [Nat.add_sub_cancel_left]
      rw [front, sub, drop_left, take_length]
    · simp only [length_append]
      omega
    · simp only [Nat.add_sub_cancel_left, bufSize]
      omega
    · exact fun none => absurd (file.symm.trans none) (some_ne_none data)
    · exact fun _ _ clean => absurd clean (by simp)
    · intro other is _
      obtain rfl := some.inj (file.symm.trans is)
      refine ⟨?_, length_append.symm, fd⟩
      simp only [take_left]
    · exact fun _ _ => fd ▸ some_ne_none true
    · exact length_append.symm
    · exact fun _ => fd
    · exact inUse ▸ used
  next room =>
    have grows : info.posEnd < data.length + key.length := by
      rw [holds.posEnd]
      omega
    have window := holds.window
    have rest : sub data info.posBuf (data.length - info.posBuf) = data.drop info.posBuf := by
      rw [sub, ← length_drop, take_length]
    rw [border, rest] at window
    have written := @sub_overwrite info.bufMem key (data.drop info.posBuf)
      (data.length - info.posBuf) window length_drop
    have whole : (data ++ key).drop info.posBuf = data.drop info.posBuf ++ key :=
      drop_append_of_le_length (by omega)
    have size : data.length + key.length - info.posBuf =
        data.length - info.posBuf + key.length := by omega
    simp only [map_some, if_pos grows]
    refine ⟨_, rfl, ⟨⟨?_, ?_, ?_, ?_, ?_, ?_, ?_, ?_⟩, ?_, ?_, ?_, fun _ => rfl⟩, rfl, rfl⟩
    · exact length_append.symm
    · simp only [size]
      have length : (data.drop info.posBuf ++ key).length =
          data.length - info.posBuf + key.length := by
        rw [length_append, length_drop]
      rw [written, sub, whole, take_of_length_le (Nat.le_of_eq length)]
    · simp only [length_append]
      omega
    · simp only
      omega
    · exact fun none => ⟨(holds.whole none).1, length_append.symm, fun clean =>
        absurd clean (by simp)⟩
    · exact fun _ _ clean => absurd clean (by simp)
    · intro file is _
      have some : info.file ≠ none := is ▸ some_ne_none file
      refine ⟨?_, length_append.symm, writable some⟩
      rw [(holds.unflushed file is (dirty some)).1]
      exact (take_append_of_le_length (by omega)).symm
    · exact fun file _ => (writable file) ▸ some_ne_none true
    · exact length_append.symm
    · exact writable
    · exact used

variable {keys : List (List Nat)}

theorem Writing.exists_writeKeys {keySize : Nat} (writing : Writing info data)
    (sizes : ∀ key ∈ keys, key.length = keySize) (positive : 0 < keySize)
    (fits : keySize ≤ info.bufSize) :
    ∃ posCur info', writeKeys keySize keys data.length info = some (posCur, info') ∧
      Writing info' (data ++ keys.flatten) ∧ info'.bufSize = info.bufSize ∧
      info'.hits = info.hits + keys.length := by
  induction keys generalizing info data with
  | nil => exact ⟨_, info, rfl, by simpa using writing, rfl, rfl⟩
  | cons key keys ih =>
    obtain ⟨size, sizes⟩ := forall_mem_cons.mp sizes
    obtain ⟨info', run, writing', bufSize, hits⟩ := writing.exists_rWrite size positive fits
    obtain ⟨posCur, info'', run', writing'', bufSize', hits'⟩ :=
      ih writing' sizes (bufSize ▸ fits)
    rw [length_append, size] at run'
    refine ⟨posCur, info'', ?_, ?_, bufSize'.trans bufSize, ?_⟩
    · rw [writeKeys, run]
      exact run'
    · rwa [flatten_cons, ← append_assoc]
    · rw [hits', hits, length_cons]
      omega

theorem writing_open (bufSize : Nat) (bufMem : List Nat) (posBorder : Nat) :
    ∃ info, rOpen true (rsetCreateTemp bufSize bufMem posBorder) = some info ∧ Writing info [] ∧
      info.bufSize = bufSize ∧ info.hits = 0 := by
  refine ⟨_, rfl, ⟨⟨rfl, rfl, ⟨Nat.le_refl _, Nat.le_refl _⟩, Nat.zero_le _,
    fun _ => ⟨rfl, rfl, fun _ => rfl⟩,
    ?_, ?_, ?_⟩, rfl, ?_, Nat.one_pos, ?_⟩, rfl, rfl⟩
  · exact fun file wrong => absurd wrong.symm (some_ne_none file)
  · exact fun file wrong => absurd wrong.symm (some_ne_none file)
  · exact fun wrong => absurd rfl wrong
  · exact fun wrong => absurd rfl wrong
  · exact fun wrong => absurd rfl wrong

theorem exists_writeAll {keySize bufSize : Nat} (bufMem : List Nat)
    (posBorder : Nat) (close : Bool) (sizes : ∀ key ∈ keys, key.length = keySize)
    (positive : 0 < keySize) (fits : keySize ≤ bufSize) :
    ∃ info, writeAll keySize keys close (rsetCreateTemp bufSize bufMem posBorder) = some info ∧
      Holds info keys.flatten ∧ info.bufSize = bufSize ∧ info.hits = keys.length := by
  obtain ⟨info, run, writing, size, none⟩ := writing_open bufSize bufMem posBorder
  obtain ⟨posCur, info', run', writing', size', hits⟩ :=
    writing.exists_writeKeys sizes positive (size.symm ▸ fits)
  rw [none, Nat.zero_add] at hits
  rw [writeAll, run, bind_some]
  have run' : writeKeys keySize keys 0 info = some (posCur, info') := run'
  rw [run', bind_some]
  cases close with
  | false => exact ⟨info', rfl, writing'.holds, size'.trans size, hits⟩
  | true =>
    obtain ⟨info'', run'', holds, size'', hits', -⟩ := writing'.holds.exists_rClose writing'.inUse
    exact ⟨info'', run'', holds, size''.trans (size'.trans size), hits'.trans hits⟩

def position (keySize : Nat) (place : Option Nat) : Option Nat := place.map (· * keySize)

theorem length_flatten {keySize : Nat}
    (sizes : ∀ key ∈ keys, key.length = keySize) : keys.flatten.length = keys.length * keySize := by
  induction keys with
  | nil => simp
  | cons key keys ih =>
    obtain ⟨size, sizes⟩ := forall_mem_cons.mp sizes
    rw [flatten_cons, length_append, size, ih sizes, length_cons, Nat.succ_mul,
      Nat.add_comm]

theorem sub_flatten {keySize place : Nat}
    (sizes : ∀ key ∈ keys, key.length = keySize) (inside : place < keys.length) :
    some (sub keys.flatten (place * keySize) keySize) = keys[place]? := by
  induction keys generalizing place with
  | nil => exact absurd inside (Nat.not_lt_zero _)
  | cons key keys ih =>
    obtain ⟨size, sizes⟩ := forall_mem_cons.mp sizes
    cases place with
    | zero =>
      rw [Nat.zero_mul, sub, drop_zero, flatten_cons, ← size, take_left]
      rfl
    | succ place =>
      have rest := ih sizes (Nat.lt_of_succ_lt_succ inside)
      rw [getElem?_cons_succ, ← rest, sub, sub, Nat.succ_mul, Nat.add_comm,
        ← drop_drop, flatten_cons, ← size, drop_left]

theorem join_position {keySize : Nat} (places : List (Option Nat)) (reader : Nat) :
    (places.map (position keySize))[reader]?.join = places[reader]?.join.map (· * keySize) := by
  rw [getElem?_map]
  cases places[reader]? with
  | none => rfl
  | some place => rfl

/-- What a set that is open to readers has to be. -/
structure Serving (keySize : Nat) (keys : List (List Nat)) (places : List (Option Nat))
    (info : RsetPrivate) : Prop where
  holds : Holds info keys.flatten
  fits : keySize ≤ info.bufSize
  inUse : places.countP isSome ≤ info.inUse

variable {keySize : Nat} {keys : List (List Nat)} {places : List (Option Nat)}

theorem Serving.used (serving : Serving keySize keys places info) {reader place : Nat}
    (open_ : places[reader]?.join = some place) : 0 < info.inUse := by
  have member : some place ∈ places := by
    apply mem_of_getElem?
    exact join_eq_some_iff.mp open_
  have some_open : 0 < places.countP isSome :=
    countP_pos_iff.mpr ⟨some place, member, rfl⟩
  exact Nat.lt_of_lt_of_le some_open serving.inUse

theorem getElem_of_join {reader place : Nat} (open_ : places[reader]?.join = some place) :
    ∃ inside : reader < places.length, places[reader] = some place :=
  List.getElem?_eq_some_iff.mp (join_eq_some_iff.mp open_)

theorem Serving.exists_call (serving : Serving keySize keys places info) (positive : 0 < keySize)
    (sizes : ∀ key ∈ keys, key.length = keySize) (c : Call) :
    match arrayCall keys c places with
    | none => call keySize c (places.map (position keySize)) info = none
    | some (item, places') => ∃ info', call keySize c (places.map (position keySize)) info =
        some (item, places'.map (position keySize), info') ∧
          Serving keySize keys places' info' := by
  cases c with
  | openNext =>
    obtain ⟨info', run, holds, bufSize, -, inUse, -⟩ := serving.holds.exists_rOpen false
    refine ⟨info', ?_, holds, bufSize ▸ serving.fits, ?_⟩
    · rw [call, run, map_append]
      simp [position]
    · rw [countP_append, inUse]
      exact Nat.add_le_add_right serving.inUse 1
  | read reader =>
    rw [arrayCall, call, join_position]
    cases open_ : places[reader]?.join with
    | none => rfl
    | some place =>
      obtain ⟨info', run, holds, bufSize, -, inUse⟩ :=
        @Holds.exists_rRead _ _ keySize (place * keySize) serving.holds (serving.used open_)
          positive serving.fits
      obtain ⟨inside, here⟩ := getElem_of_join open_
      have more : place * keySize + keySize ≤ keys.flatten.length ↔ place < keys.length := by
        rw [length_flatten sizes, ← Nat.succ_mul, Nat.mul_le_mul_right_iff positive,
          Nat.succ_le_iff]
      have kept : ∀ next : Nat, Serving keySize keys (places.set reader (some next)) info' := by
        intro next
        refine ⟨holds, bufSize ▸ serving.fits, ?_⟩
        rw [List.countP_set inside, here, inUse]
        have := serving.inUse
        simp only [isSome_some, if_true]
        have := serving.used open_
        omega
      simp only [map_some, bind_some, run]
      by_cases inside' : place < keys.length
      · simp only [if_pos inside', if_pos (more.mpr inside')]
        refine ⟨info', ?_, kept _⟩
        rw [sub_flatten sizes inside', ← Nat.succ_mul, map_set]
        rfl
      · simp only [if_neg inside', if_neg (mt more.mp inside')]
        refine ⟨info', ?_, kept _⟩
        rw [getElem?_eq_none (Nat.le_of_not_lt inside'), map_set]
        rfl
  | close reader =>
    rw [arrayCall, call, join_position]
    cases open_ : places[reader]?.join with
    | none => rfl
    | some place =>
      obtain ⟨info', run, holds, bufSize, -, inUse⟩ :=
        serving.holds.exists_rClose (serving.used open_)
      obtain ⟨inside, here⟩ := getElem_of_join open_
      refine ⟨info', ?_, holds, bufSize ▸ serving.fits, ?_⟩
      · rw [map_some, bind_some, run, map_set]
        rfl
      · rw [List.countP_set inside, here, inUse]
        have := serving.inUse
        simp
        omega

theorem Serving.serve_eq (serving : Serving keySize keys places info) (positive : 0 < keySize)
    (sizes : ∀ key ∈ keys, key.length = keySize) (calls : List Call) :
    serve keySize calls (places.map (position keySize)) info = arrayServe keys calls places := by
  induction calls generalizing places info with
  | nil => rfl
  | cons c calls ih =>
    have called := serving.exists_call positive sizes c
    rw [serve, arrayServe]
    cases is : arrayCall keys c places with
    | none =>
      rw [is] at called
      rw [called]
      rfl
    | some r =>
      rw [is] at called
      obtain ⟨info', run, serving'⟩ := called
      rw [run, bind_some, bind_some, ih serving']

/-- A set that is written and then read, by any readers in any order, gives each of them the keys
one after another and then the end, and has counted the keys. -/
theorem temp_set_array {keySize bufSize : Nat} (positive : 0 < keySize) (fits : keySize ≤ bufSize)
    {keys : List (List Nat)} (sizes : ∀ key ∈ keys, key.length = keySize) (close : Bool)
    (bufMem : List Nat) (posBorder : Nat) :
    ∃ info, writeAll keySize keys close (rsetCreateTemp bufSize bufMem posBorder) = some info ∧
      info.hits = keys.length ∧
      ∀ calls, serve keySize calls [] info = arrayServe keys calls [] := by
  obtain ⟨info, run, holds, size, hits⟩ :=
    exists_writeAll bufMem posBorder close sizes positive fits
  have serving : Serving keySize keys [] info := ⟨holds, size.symm ▸ fits, Nat.zero_le _⟩
  exact ⟨info, run, hits, serving.serve_eq positive sizes⟩

theorem temp_set_array_two : ∃ info,
    writeAll 2 [[1, 1], [1, 2]] true (rsetCreateTemp 3 [] 7) = some info ∧ info.hits = 2 ∧
      ∀ calls, serve 2 calls [] info = arrayServe [[1, 1], [1, 2]] calls [] :=
  temp_set_array (by decide) (by decide) (by decide) true [] 7

theorem temp_set_hits : (writeAll 2 [[1, 1], [1, 2]] true (rsetCreateTemp 3 [] 7)).map (·.hits) =
    some 2 ∧ ([[1, 1], [1, 2]].map head?).dedup.length = 1 := by
  decide

end Zebra.Rset.Temp
