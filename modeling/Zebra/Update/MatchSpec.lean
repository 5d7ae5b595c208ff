import Zebra.Lib.Fuel
import Zebra.Update.Flush

/-!
# Match strings by a specification

`extract.c`: `get_match_from_spec` reads the specification in `recordId` and puts together the
string under which a record is looked for in the match dictionary.

A string that ends with a NUL is the list of what is before it: the end of the list is the NUL.
-/

namespace Zebra.Update

open List

namespace MatchSpec

/-- What ends `get_match_from_spec` other than by a string. -/
inductive Stop where
  /-- It returns NULL. -/
  | null
  /-- A loop goes on behind the NUL of the specification. -/
  | overread
  /-- A loop does not end. -/
  | forever
  /-- It writes behind `dstBuf`. -/
  | overflow
  deriving DecidableEq

/-- What the match string is made of besides the keys. -/
structure Env where
  /-- `zebraExplain_lookup_attr_str` for the category of indexes, by type and name. -/
  lookupAttrStr : List Byte → List Byte → Int
  group : Option (List Byte)
  /-- `basenames[0]` -/
  database : List Byte
  fname : List Byte
  recordType : Option (List Byte)

/-- The number of words in `ws`. -/
def wsLength : Nat := 32

/-- `ch` of `searchRecordKey`: the index of the name, of type `0`, `p` or `w`. -/
def attributeOrd (env : Env) (indexName : List Byte) : Int :=
  let ch := env.lookupAttrStr [48] indexName
  let ch := if ch < 0 then env.lookupAttrStr [112] indexName else ch
  if ch < 0 then env.lookupAttrStr [119] indexName else ch

/-- One round of the loop of `searchRecordKey`, on `startSeq` and `ws`. -/
def noteKey (ch : Int) (state : Int × List (Option (List Byte))) (entry : RecKey) :
    Int × List (Option (List Byte)) :=
  if entry.ord = ch then
    let seqno := entry.key.getLastD 0
    let startSeq := if state.1 = -1 then seqno else state.1
    let woff := seqno - startSeq
    (startSeq,
      if 0 ≤ woff ∧ woff < wsLength then state.2.set woff.toNat (some entry.str) else state.2)
  else state

/-- `searchRecordKey`: `ws` -/
def searchRecordKey (env : Env) (reckeys : List RecKey) (indexName : List Byte) :
    List (Option (List Byte)) :=
  let ws := List.replicate wsLength none
  let ch := attributeOrd env indexName
  if ch < 0 then ws else (reckeys.foldl (noteKey ch) (-1, ws)).2

/-- The size of `attset_str`, `attname_str`, `special` and `tmpString`. -/
def tokenSize : Nat := 64

/-- The size of `dstBuf`. -/
def dstSize : Nat := 2048

/-- Whether the character is in `FILE_MATCH_BLANK`. -/
def isBlank (c : Byte) : Bool := c = 9 || c = 32

/-- `for (; strchr(FILE_MATCH_BLANK, *s); s++)`, where `strchr` finds the NUL as well. -/
def skipBlank : List Byte → Except Stop (List Byte)
  | [] => .error .overread
  | c :: s => if isBlank c then skipBlank s else .ok (c :: s)

/-- The loops over a name: what fits into its buffer, and the rest from the end of the name on. -/
def readName (ends : Byte → Bool) (s : List Byte) : List Byte × List Byte :=
  ((s.takeWhile fun c => !ends c).take (tokenSize - 1), s.dropWhile fun c => !ends c)

/-- The loop over a literal, which goes on only while there is room. -/
def readLiteral (stopMarker : Byte) : List Byte → List Byte → Except Stop (List Byte × List Byte)
  | [], tmp => .ok (tmp, [])
  | c :: s, tmp =>
    if c = stopMarker then .ok (tmp, s)
    else if tmp.length + 1 < tokenSize then readLiteral stopMarker s (tmp ++ [c])
    else .error .forever

/-- `*dst++ = c` -/
def putByte (dst : List Byte) (c : Byte) : Except Stop (List Byte) :=
  if dst.length < dstSize then .ok (dst ++ [c]) else .error .overflow

/-- `strcpy(dst, src)` with `dst += strlen(src)` -/
def putString (dst src : List Byte) : Except Stop (List Byte) :=
  if dst.length + src.length < dstSize then .ok (dst ++ src) else .error .overflow

/-- `*dst++ = ' '` for the first of the words. -/
def putFirst (first : Bool) (dst : List Byte) : Except Stop (List Byte) :=
  if first then putByte dst 32 else .ok dst

/-- The loop over `ws`, on `first` and `dst`. -/
def putWords : Bool → List Byte → List (Option (List Byte)) → Except Stop (Bool × List Byte)
  | first, dst, [] => .ok (first, dst)
  | first, dst, none :: ws => putWords first dst ws
  | first, dst, some w :: ws => do
      let dst ← putFirst first dst
      let dst ← putString dst w
      putWords false dst ws

/-- `attname_str`: what stands behind a comma, and otherwise `attset_str`; with the rest. -/
def attName (attset : List Byte) : List Byte → Except Stop (List Byte × List Byte)
  | [] => .ok (attset, [])
  | c :: s =>
    if c = 44 then (skipBlank s).map (readName fun c => c = 41 || isBlank c)
    else .ok (attset, c :: s)

/-- The end of an attribute: the rest behind the closing parenthesis, and `dst` with the words. -/
def closeAttribute (env : Env) (reckeys : List RecKey) (dst : List Byte)
    (attname : List Byte × List Byte) : Except Stop (List Byte × List Byte) :=
  match attname.2 with
  | [] => .error .null
  | c :: s =>
    if c = 41 then do
      let put ← putWords true dst (searchRecordKey env reckeys attname.1)
      if put.1 then .error .null else .ok (s, put.2)
    else .error .null

/-- An attribute, behind the parenthesis: the rest, and `dst`. -/
def attributeComponent (env : Env) (reckeys : List RecKey) (s dst : List Byte) :
    Except Stop (List Byte × List Byte) := do
  let s ← skipBlank s
  let attset := readName (fun c => c = 44 || c = 41 || isBlank c) s
  let s ← skipBlank attset.2
  let attname ← attName attset.1 s
  closeAttribute env reckeys dst attname

def specSrc (env : Env) (special : List Byte) : Option (List Byte) :=
  -- "group", "database", "filename" and "type"
  if special = [103, 114, 111, 117, 112] then env.group
  else if special = [100, 97, 116, 97, 98, 97, 115, 101] then some env.database
  else if special = [102, 105, 108, 101, 110, 97, 109, 101] then some env.fname
  else if special = [116, 121, 112, 101] then env.recordType
  else none

def variableComponent (env : Env) (s dst : List Byte) : Except Stop (List Byte × List Byte) := do
  let special := readName isBlank s
  let dst ← (specSrc env special.1).elim (.ok dst) (putString dst)
  .ok (special.2, dst)

def literalComponent (stopMarker : Byte) (s dst : List Byte) :
    Except Stop (List Byte × List Byte) := do
  let tmp ← readLiteral stopMarker s []
  let dst ← putString dst tmp.1
  .ok (tmp.2, dst)

/-- What is done at the character that a component begins with: the rest, and `dst`. -/
def component (env : Env) (reckeys : List RecKey) (c : Byte) (s dst : List Byte) :
    Except Stop (List Byte × List Byte) :=
  if c = 40 then attributeComponent env reckeys s dst
  else if c = 36 then variableComponent env s dst
  else if c = 34 ∨ c = 39 then literalComponent c s dst
  else .error .null

theorem skipBlank_eq (s : List Byte) :
    skipBlank s = if s.dropWhile isBlank = [] then .error .overread else .ok
      (s.dropWhile isBlank) := by
  induction s with
  | nil => rfl
  | cons c s ih =>
    rw [skipBlank]
    cases blank : isBlank c with
    | true =>
      rw [if_pos rfl, dropWhile_cons_of_pos blank]
      exact ih
    | false =>
      have word : ¬ isBlank c = true := Bool.eq_false_iff.mp blank
      rw [if_neg Bool.false_ne_true, dropWhile_cons_of_neg word,
        if_neg (cons_ne_nil c s)]

theorem readLiteral_eq (stopMarker : Byte) (s tmp : List Byte) (room : tmp.length < tokenSize) :
    readLiteral stopMarker s tmp =
      if tmp.length + (s.takeWhile (· ≠ stopMarker)).length < tokenSize then
        .ok (tmp ++ s.takeWhile (· ≠ stopMarker), (s.dropWhile (· ≠ stopMarker)).tail)
      else .error .forever := by
  induction s generalizing tmp with
  | nil =>
    rw [takeWhile_nil, append_nil, length_nil, Nat.add_zero, if_pos room]
    rfl
  | cons c s ih =>
    rw [readLiteral, takeWhile_cons, dropWhile_cons]
    by_cases stop : c = stopMarker
    · have ends : decide (c ≠ stopMarker) = false := by simp [stop]
      rw [if_pos stop, ends, if_neg Bool.false_ne_true, if_neg Bool.false_ne_true, append_nil,
        length_nil, Nat.add_zero, if_pos room]
      rfl
    · have goes : decide (c ≠ stopMarker) = true := by simp [stop]
      rw [if_neg stop, goes, if_pos rfl, if_pos rfl, length_cons]
      by_cases more : tmp.length + 1 < tokenSize
      · rw [if_pos more, ih (tmp ++ [c]) (by rw [length_append]; exact more),
          length_append, length_singleton, append_assoc, singleton_append,
          Nat.add_assoc, Nat.add_comm 1]
      · rw [if_neg more, if_neg (by omega)]

theorem length_dropWhile_le (p : Byte → Bool) (s : List Byte) :
    (s.dropWhile p).length ≤ s.length := (dropWhile_sublist p).length_le

theorem skipBlank_length {s rest : List Byte} (done : skipBlank s = .ok rest) :
    rest.length ≤ s.length := by
  rw [skipBlank_eq] at done
  split at done
  · cases done
  · cases done
    exact length_dropWhile_le isBlank s

theorem attName_length {attset s : List Byte} {attname : List Byte × List Byte}
    (done : attName attset s = .ok attname) : attname.2.length ≤ s.length := by
  unfold attName at done
  split at done
  · cases done
    exact le_rfl
  · rename_i c s
    split at done
    · cases skipped : skipBlank s with
      | error stop =>
        rw [skipped] at done
        cases done
      | ok rest =>
        rw [skipped] at done
        cases done
        have shorter := skipBlank_length skipped
        exact (length_dropWhile_le _ rest).trans (shorter.trans (Nat.le_succ _))
    · cases done
      exact le_rfl

theorem component_length {env : Env} {reckeys : List RecKey} {c : Byte}
    {s dst : List Byte} {out : List Byte × List Byte}
    (done : component env reckeys c s dst = .ok out) : out.1.length ≤ s.length := by
  unfold component at done
  split at done
  · -- an attribute
    obtain ⟨s₁, skipped, done⟩ := bind_eq_ok done
    obtain ⟨s₂, skipped', done⟩ := bind_eq_ok done
    obtain ⟨attname, named, done⟩ := bind_eq_ok done
    have first := skipBlank_length skipped
    have second := (skipBlank_length skipped').trans (length_dropWhile_le _ s₁)
    have third := attName_length named
    unfold closeAttribute at done
    split at done
    · cases done
    · rename_i c rest named_eq
      rw [named_eq, length_cons] at third
      split at done
      · obtain ⟨put, -, done⟩ := bind_eq_ok done
        split at done
        · cases done
        · cases done
          dsimp only
          omega
      · cases done
  · split at done
    · obtain ⟨dst', -, done⟩ := bind_eq_ok done
      cases done
      exact length_dropWhile_le _ s
    · split at done
      · obtain ⟨tmp, read, done⟩ := bind_eq_ok done
        obtain ⟨dst', -, done⟩ := bind_eq_ok done
        cases done
        rw [readLiteral_eq c s [] (by decide)] at read
        split at read
        · cases read
          dsimp only
          rw [length_tail]
          exact (Nat.sub_le _ 1).trans (length_dropWhile_le _ s)
        · cases read
      · cases done

theorem component_decreasing {env : Env} {reckeys : List RecKey} {c : Byte}
    {spec s dst : List Byte} {out : List Byte × List Byte}
      (blanks : spec.dropWhile isBlank = c :: s)
    (done : component env reckeys c s dst = .ok out) : out.1.length < spec.length := by
  have shorter := length_dropWhile_le isBlank spec
  have rest := component_length done
  rw [blanks, length_cons] at shorter
  omega

/-- The loop of `get_match_from_spec`. -/
def matchLoop (env : Env) (reckeys : List RecKey) (s dst : List Byte) : Except Stop (List Byte) :=
  match _blanks : s.dropWhile isBlank with
  | [] => .ok dst
  | c :: s =>
    match _done : component env reckeys c s dst with
    | .error stop => .error stop
    | .ok out =>
      match putByte out.2 1 with
      | .error stop => .error stop
      | .ok dst => matchLoop env reckeys out.1 dst
termination_by s.length
decreasing_by exact component_decreasing _blanks _done

/-- `get_match_from_spec`: the string in `dstBuf`. -/
def getMatchFromSpec (env : Env) (reckeys : List RecKey) (spec : List Byte) :
    Except Stop (List Byte) := do
  let dst ← matchLoop env reckeys spec []
  if dst = [] then .error .null else (putByte dst 0).map fun _ => dst

end MatchSpec

end Zebra.Update
