import Zebra.Lib.Decimal
import Zebra.Lib.Varint

/-!
# Source expressions

`recgrs.c`: `sp_parse` evaluates the source of a term, such as `range(data,5,3)`, at a node, while
it takes tokens off the text.
-/

namespace Zebra.Source

/-- Where an evaluation ends that does not return. -/
inductive EvalStop where
  /-- There are more steps than what has been given for them. -/
  | fuel
  /-- A word is used that has not been set. -/
  | unset
  /-- Bytes outside of a string are read. -/
  | beyond
  /-- The length of a null pointer is asked for. -/
  | null
  deriving DecidableEq

/-- `term_buf` with `term_len`: a place in the string it has been taken from -/
structure View where
  str : List Byte
  off : Int
  len : Int
  deriving DecidableEq

inductive Word where
  | unset
  /-- A null pointer, with no length of its own -/
  | null
  | view (v : View)
  deriving DecidableEq

/-- The name and the value of a `data1_xattr`, which is null where there is no `=` -/
structure Attr where
  name : List Byte
  value : Option (List Byte)

inductive SourceNode where
  | data (text : List Byte)
  | tag (tag : List Byte) (attributes : List Attr)
  | other

def View.all (s : List Byte) : View := ⟨s, 0, s.length⟩

def View.bytes (v : View) : Except EvalStop (List Byte) :=
  if v.len ≤ 0 then .ok []
  else if 0 ≤ v.off ∧ v.off + v.len ≤ v.str.length then
    .ok ((v.str.drop v.off.toNat).take v.len.toNat)
  else .error .beyond

def Word.bytes : Word → Except EvalStop (List Byte)
  | .view v => v.bytes
  | _ => .error .unset

/-- `lookahead`, with `tok` and `len` for a `t` -/
inductive Look where
  | text (tok : List Byte)
  | char (c : Byte)
  deriving DecidableEq

def tokChar (c : Byte) : Bool :=
  c != 0 && !decide (c ∈ ([60, 62, 40, 41, 59, 44, 45, 58, 32] : List Byte))

structure SourceParser where
  look : Look
  src : List Byte
  deriving DecidableEq

def spLex (src : List Byte) : SourceParser :=
  let s := src.dropWhile (· == 32)
  if s.takeWhile tokChar ≠ [] then ⟨.text (s.takeWhile tokChar), s.dropWhile tokChar⟩
  else ⟨.char (s.headD 0), if s.headD 0 = 0 then s else s.tail⟩

def SourceParser.lex (p : SourceParser) : SourceParser := spLex p.src

/-- What an expression comes to: whether it is complete, and the word as it is then -/
structure Res where
  ok : Bool
  word : Word
  parser : SourceParser

/-- `!memcmp(name, bytes, len)`, up to the first difference -/
def memcmpSame (name bytes : List Byte) : Except EvalStop Bool :=
  if bytes.isPrefixOf (name ++ [0]) then .ok true
  else if (name ++ [0]).isPrefixOf bytes then .error .beyond
  else .ok false

def findAttr : List Attr → Word → Except EvalStop (Option Attr)
  | [], _ => .ok none
  | p :: rest, w =>
    w.bytes.bind fun bytes =>
      if p.name.length = bytes.length then .ok (some p)
      else (memcmpSame p.name bytes).bind fun same =>
        if same then .ok (some p) else findAttr rest w

/-- `p->value` with its length, empty where there is no such attribute -/
def valueOf : Option Attr → Except EvalStop (List Byte)
  | none => .ok []
  | some ⟨_, some value⟩ => .ok value
  | some ⟨_, none⟩ => .error .null

def attrValue (n : SourceNode) (w : Word) : Except EvalStop (List Byte) :=
  match n with
  | .tag _ attributes => (findAttr attributes w).bind valueOf
  | _ => .ok []

/-- `attr(e)`, at its name -/
def spAttr (expr : Word → SourceParser → Except EvalStop Res) (n : SourceNode) (w : Word)
    (p : SourceParser) : Except EvalStop Res :=
  if p.lex.look ≠ .char 40 then .ok ⟨false, w, p.lex⟩
  else (expr .unset p.lex.lex).bind fun r =>
    if r.ok = false then .ok ⟨false, w, r.parser⟩
    else (attrValue n r.word).bind fun value =>
      if r.parser.look ≠ .char 41 then .ok ⟨false, .view (.all value), r.parser⟩
      else .ok ⟨true, .view (.all value), r.parser.lex⟩

/-- The part of a word that is taken, where it has been set -/
def clip (start : Int) (len : Option Int) : Word → Except EvalStop Word
  | .unset => .error .unset
  | .null => .ok .null
  | .view v =>
    if v.len ≤ start then .ok (.view { v with len := 0 })
    else
      let rest := v.len - start
      .ok (.view ⟨v.str, v.off + start, if (len.getD v.len) < rest then len.getD v.len else rest⟩)

/-- `sp_range`, behind the length -/
def rangeEnd (w : Word) (start : Int) (len : Option Int) (p : SourceParser) : Except EvalStop Res :=
  if p.look ≠ .char 41 then .ok ⟨false, w, p⟩
  else (clip start len w).bind fun word => .ok ⟨true, word, p.lex⟩

def spRange (atoiN : List Byte → Int) (expr : Word → SourceParser → Except EvalStop Res) (w : Word)
    (p : SourceParser) : Except EvalStop Res :=
  if p.lex.look ≠ .char 40 then .ok ⟨false, w, p.lex⟩
  else (expr w p.lex.lex).bind fun r =>
    if r.ok = false ∨ r.parser.look ≠ .char 44 then .ok ⟨false, r.word, r.parser⟩
    else (expr .unset r.parser.lex).bind fun first =>
      if first.ok = false then .ok ⟨false, r.word, first.parser⟩
      else first.word.bytes.bind fun start =>
        if first.parser.look ≠ .char 44 then rangeEnd r.word (atoiN start) none first.parser
        else (expr first.word first.parser.lex).bind fun second =>
          if second.ok = false then .ok ⟨false, r.word, second.parser⟩
          else second.word.bytes.bind fun len =>
            rangeEnd r.word (atoiN start) (some (atoiN len)) second.parser

def firstMatch (search : List Byte) : Nat → List Byte → Option Nat
  | _, [] => none
  | i, c :: rest =>
    if search.isPrefixOf (c :: rest) then some i else firstMatch search (i + 1) rest

/-- One search of `sp_first`, in which the string is looked at only where the word has bytes -/
def searchWord (bytes : List Byte) (search : Word) (minPos : Option Nat) :
    Except EvalStop (Option Nat) :=
  if bytes = [] then .ok minPos
  else search.bytes.bind fun s =>
    match firstMatch s 0 bytes with
    | none => .ok minPos
    | some i => .ok (some (minPos.elim i (min · i)))

/-- The loop of `sp_first` -/
def firstLoop (expr : Word → SourceParser → Except EvalStop Res) (w : Word) :
    Nat → Option Nat → SourceParser → Except EvalStop (Bool × Option Nat × SourceParser)
  | 0, _, _ => .error .fuel
  | fuel + 1, minPos, p =>
    if p.look ≠ .char 44 then .ok (true, minPos, p)
    else (expr .unset p.lex).bind fun r =>
      if r.ok = false then .ok (false, minPos, r.parser)
      else w.bytes.bind fun bytes => (searchWord bytes r.word minPos).bind fun minPos =>
        firstLoop expr w fuel minPos r.parser

def spFirst (expr : Word → SourceParser → Except EvalStop Res) (fuel : Nat) (w : Word)
    (p : SourceParser) : Except EvalStop Res :=
  if p.lex.look ≠ .char 40 then .ok ⟨false, w, p.lex⟩
  else (expr w p.lex.lex).bind fun r =>
    if r.ok = false then .ok ⟨false, r.word, r.parser⟩
    else (firstLoop expr r.word fuel none r.parser).bind fun found =>
      if found.1 = false ∨ found.2.2.look ≠ .char 41 then .ok ⟨false, r.word, found.2.2⟩
      else .ok ⟨true, .view (.all (Decimal.decimal (found.2.1.getD 0))), found.2.2.lex⟩

/-- The token of a number or of a string in quotes, or any other -/
def literal (tok : List Byte) : View :=
  if (tok.head?.any fun c => 48 ≤ c && c ≤ 57) = true then .all tok
  else if 2 < tok.length ∧ tok.head? = some 39 ∧ tok.getLast? = some 39 then
    .all (tok.tail.take (tok.length - 2))
  else .all []

/-- `data`, which leaves the word as it is at other nodes -/
def dataWord (n : SourceNode) (w : Word) : Word :=
  match n with
  | .data text => .view (.all text)
  | _ => w

/-- `tag`, which leaves the word as it is at other nodes -/
def tagWord (n : SourceNode) (w : Word) : Word :=
  match n with
  | .tag tag _ => .view (.all tag)
  | _ => w

def spExpr (atoiN : List Byte → Int) (n : SourceNode) :
    Nat → Word → SourceParser → Except EvalStop Res
  | 0, _, _ => .error .fuel
  | fuel + 1, w, p =>
    match p.look with
    | .char _ => .ok ⟨false, w, p⟩
    | .text tok =>
      if tok = [100, 97, 116, 97] then .ok ⟨true, dataWord n w, p.lex⟩
      else if tok = [116, 97, 103] then .ok ⟨true, tagWord n w, p.lex⟩
      else if tok = [97, 116, 116, 114] then spAttr (spExpr atoiN n fuel) n w p
      else if tok = [102, 105, 114, 115, 116] then spFirst (spExpr atoiN n fuel) fuel w p
      else if tok = [114, 97, 110, 103, 101] then spRange atoiN (spExpr atoiN n fuel) w p
      else .ok ⟨true, .view (literal tok), p.lex⟩

def spParse (atoiN : List Byte → Int) (n : SourceNode) (w : Word) (src : List Byte) :
    Except EvalStop Res :=
  spExpr atoiN n (src.length + 2) w (spLex src)

end Zebra.Source
