import Zebra.Lib.Varint

/-!
# The arguments of a character map

`charmap.c`: `scan_string` goes over the argument of a directive, in which characters are written as
they are or with a backslash, ranges in braces and strings in parentheses.  The argument is without
its terminating zero, a place behind which is none of its own.
-/

namespace Zebra.CharMap

inductive ScanStop where
  /-- A loop takes more rounds than what has been given for it. -/
  | fuel
  /-- A character behind the terminating zero is read. -/
  | beyond
  /-- A local array is written behind its end. -/
  | array
  /-- A string is stored outside of the output table. -/
  | table
  deriving DecidableEq

/-- `s[i]` -/
def charAt (arg : List Nat) (i : Nat) : Except ScanStop Nat :=
  match arg[i]? with
  | some c => .ok c
  | none => if i = arg.length then .ok 0 else .error .beyond

def isSpace (c : Nat) : Bool := c = 32 || (9 ≤ c && c ≤ 13)

def digitOf (base c : Nat) : Option Nat :=
  let value := if 48 ≤ c ∧ c ≤ 57 then c - 48 else if 97 ≤ c ∧ c ≤ 102 then c - 87
    else if 65 ≤ c ∧ c ≤ 70 then c - 55 else base
  if value < base then some value else none

def digitsFront (base : Nat) : List Nat → Nat → Nat
  | [], value => value
  | c :: rest, value =>
    match digitOf base c with
    | none => value
    | some d => digitsFront base rest (value * base + d)

/-- `sscanf` with `%x` or `%o`, of at most four characters; nothing is changed where no digit is
found. -/
def sscanf (base : Nat) (fmtstr : List Nat) : Nat :=
  let text := ((fmtstr.map (· % 256)).takeWhile (· != 0)).dropWhile isSpace
  let unsigned := match text with
    | 43 :: rest => rest
    | 45 :: rest => rest
    | rest => rest
  let number := match unsigned with
    | 48 :: 120 :: rest => if base = 16 then rest else unsigned
    | 48 :: 88 :: rest => if base = 16 then rest else unsigned
    | _ => unsigned
  if text.head? = some 45 then (2 ^ 32 - digitsFront base number 0) % 2 ^ 32
  else digitsFront base number 0

/-- The part of `zebra_prim_w` behind a backslash, at the character `c` there, which is at `s`. -/
def escape (arg : List Nat) (c s : Nat) : Nat × Nat :=
  if c = 92 then (92, s + 1)
  else if c = 114 then (13, s + 1)
  else if c = 110 then (10, s + 1)
  else if c = 116 then (9, s + 1)
  else if c = 115 then (32, s + 1)
  else if c = 120 then
    if 3 ≤ arg.length - s then (sscanf 16 ((arg.drop (s + 1)).take 2), s + 3) else (c, s)
  else if 48 ≤ c ∧ c ≤ 57 then
    if 3 ≤ arg.length - s then (sscanf 8 ((arg.drop s).take 3), s + 3) else (c, s)
  else if c = 76 then
    if 5 ≤ arg.length - s then (sscanf 16 ((arg.drop (s + 1)).take 4), s + 5) else (c, s)
  else (c, s + 1)

/-- `zebra_prim_w`: the character and where it ends -/
def zebraPrimW (arg : List Nat) (s : Nat) : Except ScanStop (Nat × Nat) :=
  (charAt arg s).bind fun c =>
    if c = 92 then
      (charAt arg (s + 1)).bind fun next =>
        if next ≠ 0 then .ok (escape arg next (s + 1)) else .ok (c, s + 1)
    else .ok (c, s + 1)

/-- What `scan_string` is called with: the conversion to UTF-8, which may fail, for `fun_addentry`
the number from which codes are counted in the output table, and whether the directive is
`lowercase`. -/
structure Scanner where
  utf8 : List Nat → Option (List Byte)
  base : Option Nat
  lowercase : Bool

/-- Whether a code is one of the output table, where there is one -/
def Scanner.inTable (sc : Scanner) (num : Nat) : Bool := sc.base.all fun base => num + base < 256

/-- What a part of `scan_string` that returns comes to: -1, or what it has found, and for both the
number for the next code, which `num` points to. -/
abbrev Scanned (α : Type) := Except Nat α

/-- `(*fun)(str, data, num ? (*num)++ : 0)`, for converted characters; -1 where they cannot be
converted. -/
def Scanner.add (sc : Scanner) (chars : List Nat) (num : Nat) : Except ScanStop (Scanned Nat) :=
  match sc.utf8 chars with
  | none => .ok (.error num)
  | some _ => if sc.inTable num then .ok (.ok (num + 1)) else .error .table

/-- The characters of a range, of which the last number there is cannot be converted -/
def addRange (sc : Scanner) : Nat → Nat → Nat → Except ScanStop (Scanned Nat)
  | _, 0, num => .ok (.ok num)
  | c, n + 1, num =>
    (sc.add [c] num).bind fun added =>
      match added with
      | .error num => .ok (.error num)
      | .ok num => addRange sc (c + 1) n num

/-- The loop over a string in parentheses: its characters and the place of the closing one; none
where there is none. -/
def scanGroup (arg : List Nat) : Nat → Nat → List Nat → Except ScanStop (Option (List Nat × Nat))
  | 0, _, _ => .error .fuel
  | fuel + 1, s, prim =>
    (charAt arg s).bind fun c =>
      (charAt arg (s - 1)).bind fun before =>
        if c ≠ 41 ∨ before = 92 then
          if c = 0 then .ok none
          else if 512 ≤ prim.length then .error .array
          else (zebraPrimW arg s).bind fun next => scanGroup arg fuel next.2 (prim ++ [next.1])
        else if 512 ≤ prim.length then .error .array
        else .ok (some (prim, s))

/-- The branch of `scan_string` for a range, behind the brace -/
def scanRange (sc : Scanner) (arg : List Nat) (s num : Nat) :
    Except ScanStop (Scanned (Nat × Nat)) :=
  (zebraPrimW arg s).bind fun begin' =>
    (charAt arg begin'.2).bind fun c =>
      if c ≠ 45 then .ok (.error num)
      else
        (zebraPrimW arg (begin'.2 + 1)).bind fun end' =>
          if end'.1 ≤ begin'.1 then .ok (.error num)
          else
            (addRange sc begin'.1 (end'.1 + 1 - begin'.1) num).map fun added =>
              added.map fun num => (end'.2 + 1, num)

/-- A round of `scan_string` at a character: the place behind and the next code -/
def scanItem (sc : Scanner) (arg : List Nat) (s num : Nat) :
    Except ScanStop (Scanned (Nat × Nat)) :=
  (charAt arg s).bind fun c =>
    if c = 123 then scanRange sc arg (s + 1) num
    else if c = 40 then
      (scanGroup arg (arg.length + 1) (s + 1) []).bind fun found =>
        match found with
        | none => .ok (.error num)
        | some group =>
          (sc.add group.1 num).map fun added => added.map fun num => (group.2 + 1, num)
    else
      (zebraPrimW arg s).bind fun next =>
        (sc.add [next.1] num).map fun added => added.map fun num => (next.2, num)

/-- The loop of `scan_string` -/
def scanLoop (sc : Scanner) (arg : List Nat) : Nat → Nat → Nat → Except ScanStop (Scanned Nat)
  | 0, _, _ => .error .fuel
  | fuel + 1, s, num =>
    (charAt arg s).bind fun c =>
      if c = 0 then .ok (.ok num)
      else
        (scanItem sc arg s num).bind fun next =>
          match next with
          | .error num => .ok (.error num)
          | .ok next => scanLoop sc arg fuel next.1 next.2

/-- Where the argument begins, behind a byte order mark -/
def scanStart (arg : List Nat) : Nat := if arg.head? = some 0xfeff then 1 else 0

/-- `scan_string`, for a converted argument -/
def scanString (sc : Scanner) (arg : List Nat) (num : Nat) : Except ScanStop (Scanned Nat) :=
  scanLoop sc arg (arg.length + 2) (scanStart arg) num

/-- `*num` behind a scan -/
def Scanned.num : Scanned Nat → Nat
  | .error num => num
  | .ok num => num

/-- `(int) *CHR_SPACE`, one above that of `CHR_UNKNOWN` -/
def chrSpaceCode : Nat := 2

/-- The scan of a directive of `chrmaptab_create`.  Behind that of `lowercase`, whatever it returns,
the space and the unknown character of the uppercase letters are stored, the latter below the
former. -/
def scanDirective (sc : Scanner) (arg : List Nat) (num : Nat) : Except ScanStop (Scanned Nat) :=
  (scanString sc arg num).bind fun res =>
    if sc.lowercase ∧ 256 ≤ chrSpaceCode + res.num then .error .table else .ok res

end Zebra.CharMap
