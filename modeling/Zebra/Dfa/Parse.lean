import Zebra.Dfa.CharSet
import Zebra.Keys.ItKey

/-!
# The pattern parser

`dfa.c` from the lexer to `do_parse`, with no character map set: a pattern becomes a tree whose
leaves are character ranges with a position each.
-/

namespace Zebra.Dfa

/-- `struct Tnode`: a leaf with `ch[0] >= 0` stands for a character in `ch[0]..ch[1]`, one with
`ch[0] < 0` accepts the rule `-ch[0]`. -/
inductive Tnode where
  | cat (p0 p1 : Tnode)
  | or (p0 p1 : Tnode)
  | star (p0 : Tnode)
  | plus (p0 : Tnode)
  | epsilon
  | leaf (pos : Nat) (ch0 ch1 : Int)
  deriving DecidableEq

/-- `lookahead`: the `L_` codes, and 0 at the end. -/
inductive Lookahead where
  | eos
  | lp
  | rp
  | char
  | chars
  | any
  | alt
  | anyz
  | wild
  | quest
  | clos1
  | clos0
  | endAnchor
  | startAnchor
  deriving DecidableEq

/-- `struct DFA_parse`, what the parser uses of it; `exprPtr` holds the characters from there to the
end of the string. -/
structure DfaParse where
  position : Nat
  rule : Nat
  anyset : BSet
  charMap : List (Byte × Lookahead)
  lookCh : Nat
  lookahead : Lookahead
  lookChars : BSet
  insideString : Bool
  exprPtr : List Byte
  deriving DecidableEq

/-- `thompson_chars` of `dfa_parse_cmap_thompson` -/
def thompsonChars : List (Byte × Lookahead) :=
  [(42, .clos0), (43, .clos1), (124, .alt), (94, .startAnchor), (36, .endAnchor), (63, .quest),
    (46, .any), (40, .lp), (41, .rp), (32, .eos), (9, .eos), (10, .eos)]

/-- `dfa_parse_init` with `dfa_parse_cmap_thompson`, before the expression is set; `.` does not
include `\n`. -/
def dfaInit : DfaParse :=
  { position := 0
    rule := 0
    anyset := comBSet (addBSet resBSet 10)
    charMap := thompsonChars
    lookCh := 0
    lookahead := .eos
    lookChars := resBSet
    insideString := false
    exprPtr := [] }

/-- `nextchar`: the character, 0 at the end, whether it was escaped, and where the next one is. -/
def nextchar : List Byte → Nat × Bool × List Byte
  | [] => (0, false, [])
  | 92 :: [] => (92, true, [])
  | 92 :: ch :: rest =>
    match ch with
    | 13 => (92, true, ch :: rest)
    | 10 => (92, true, ch :: rest)
    | 9 => (32, true, rest)
    | 110 => (10, true, rest)
    | 116 => (9, true, rest)
    | 114 => (13, true, rest)
    | 102 => (12, true, rest)
    | _ => (ch, true, rest)
  | ch :: rest => (ch, false, rest)

def nextcharSet : List Byte → Nat × Bool × List Byte
  | 32 :: rest => (32, false, rest)
  | ptr => nextchar ptr

/-- `for (i = ch0; ++i <= ch1;) add_BSet (..., i)` -/
def addRange (set : BSet) (ch0 ch1 : Nat) : BSet :=
  (List.range' (ch0 + 1) (ch1 - ch0)).foldl addBSet set

/-- The loop of `read_charset`: `ch0` is the last met character. -/
def readCharsetLoop : Nat → BSet → Nat → Bool → List Byte → Option (BSet × List Byte)
  | 0, _, _, _, _ => none
  | fuel + 1, set, ch0, esc0, ptr =>
    if ch0 = 0 then some (set, ptr)
    else if esc0 = false ∧ ch0 = 93 then some (set, ptr)
    else
      let (ch0, set, ch1, esc1, ptr) :=
        if esc0 = false ∧ ch0 = 45 then (1, addBSet set 1, ch0, esc0, ptr)
        else
          let (ch0, ptr) := if ch0 = 1 then ((nextchar ptr).1, (nextchar ptr).2.2) else (ch0, ptr)
          let (ch1, esc1, ptr) := nextcharSet ptr
          (ch0, addBSet set ch0, ch1, esc1, ptr)
      if esc1 = false ∧ ch1 = 45 then
        let (ch1, esc1, ptr) := nextcharSet ptr
        if ch1 = 0 then some (set, ptr)
        else if esc1 = false ∧ ch1 = 93 then
          -- an open range
          some (addRange set ch0 255, ptr)
        else
          let (ch1, ptr) := if ch1 = 1 then ((nextchar ptr).1, (nextchar ptr).2.2) else (ch1, ptr)
          let (next, esc, ptr) := nextcharSet ptr
          readCharsetLoop fuel (addRange set ch0 ch1) next esc ptr
      else readCharsetLoop fuel set ch1 esc1 ptr

def readCharset (fuel : Nat) (p : DfaParse) : Option (Lookahead × DfaParse) := do
  let (ch0, esc0, ptr) := nextcharSet p.exprPtr
  let (cc, ch0, esc0, ptr) := if esc0 = false ∧ ch0 = 94
    then (true, nextcharSet ptr)
    else (false, ch0, esc0, ptr)
  let (set, ptr) ← readCharsetLoop fuel resBSet ch0 esc0 ptr
  some (.chars, { p with lookChars := if cc then comBSet set else set, exprPtr := ptr })

/-- `map_l_char` without a character map: the character 1 quotes the one behind it.  (It is always
`look_ch` that the source looks at in front of `expr_ptr`: no escape stands for 1.) -/
def mapLChar (p : DfaParse) : Lookahead × DfaParse :=
  if p.lookCh = 1 then
    match p.exprPtr with
    | [] => (.char, p)
    | ch :: rest => (.char, { p with lookCh := ch, exprPtr := rest })
  else (.char, p)

def lexSub : Nat → DfaParse → Option (Lookahead × DfaParse)
  | 0, _ => none
  | fuel + 1, p =>
    let (lookCh, esc, ptr) := nextchar p.exprPtr
    let before := p.exprPtr
    let p := { p with lookCh, exprPtr := ptr }
    if lookCh = 0 then some (.eos, p)
    else if lookCh = 34 then
      if esc then some (mapLChar p)
      else lexSub fuel { p with insideString := !p.insideString }
    else if esc ∨ p.insideString then some (mapLChar p)
    else if lookCh = 91 then readCharset fuel p
    else
      match p.charMap.lookup lookCh with
      | some .eos => some (.eos, { p with exprPtr := before })
      | some code => some (code, p)
      | none => some (mapLChar p)

def lex (fuel : Nat) (p : DfaParse) : Option DfaParse := do
  let (lookahead, p) ← lexSub fuel p
  some { p with lookahead }

/-- The loop of `mk_Tnode_cset`: `ch1` is no member, the ranges before it are in `tn0`. -/
def csetLoop (charset : BSet) : Nat → Nat → Tnode → Nat → Tnode × Nat
  | 0, _, tn0, position => (tn0, position)
  | fuel + 1, ch1, tn0, position =>
    match travBSet charset ch1 with
    | none => (tn0, position)
    | some ch0 =>
      match traviBSet charset (ch0 + 1) with
      | none => (.or tn0 (.leaf (position + 1) ch0 charsetSize), position + 1)
      | some ch1 =>
        csetLoop charset fuel ch1 (.or tn0 (.leaf (position + 1) ch0 (ch1 - 1 : Nat)))
          (position + 1)

/-- `mk_Tnode_cset`: the tree and the positions used. -/
def mkTnodeCset (charset : BSet) (position : Nat) : Tnode × Nat :=
  match travBSet charset 0 with
  | none => (.epsilon, position)
  | some ch0 =>
    match traviBSet charset (ch0 + 1) with
    | none => (.leaf (position + 1) ch0 charsetSize, position + 1)
    | some ch1 =>
      -- every range takes a character
      csetLoop charset (charsetSize + 1) ch1 (.leaf (position + 1) ch0 (ch1 - 1 : Nat))
        (position + 1)

/-- A tree of a set of characters, with the positions counted. -/
def mkCset (charset : BSet) (p : DfaParse) : Tnode × DfaParse :=
  let (tn, position) := mkTnodeCset charset p.position
  (tn, { p with position })

mutual

/-- `expr_1`; no tree is `NULL`. -/
def expr1 : Nat → DfaParse → Option (Option Tnode × DfaParse)
  | 0, _ => none
  | fuel + 1, p => do
      let (t1, p) ← expr2 fuel p
      match t1 with
      | none => some (none, p)
      | some t1 => alternatives fuel t1 p

/-- The loop of `expr_1`. -/
def alternatives : Nat → Tnode → DfaParse → Option (Option Tnode × DfaParse)
  | 0, _, _ => none
  | fuel + 1, t1, p =>
    if p.lookahead = .alt then do
      let p ← lex fuel p
      let (t2, p) ← expr2 fuel p
      match t2 with
      | none => some (none, p)
      | some t2 => alternatives fuel (.or t1 t2) p
    else some (some t1, p)

def expr2 : Nat → DfaParse → Option (Option Tnode × DfaParse)
  | 0, _ => none
  | fuel + 1, p => do
      let (t1, p) ← expr3 fuel p
      match t1 with
      | none => some (none, p)
      | some t1 => factors fuel t1 p

/-- The loop of `expr_2`. -/
def factors : Nat → Tnode → DfaParse → Option (Option Tnode × DfaParse)
  | 0, _, _ => none
  | fuel + 1, t1, p =>
    if p.lookahead = .wild ∨ p.lookahead = .anyz ∨ p.lookahead = .any ∨ p.lookahead = .lp ∨
        p.lookahead = .char ∨ p.lookahead = .chars then do
      let (t2, p) ← expr3 fuel p
      match t2 with
      | none => some (none, p)
      | some t2 => factors fuel (.cat t1 t2) p
    else some (some t1, p)

def expr3 : Nat → DfaParse → Option (Option Tnode × DfaParse)
  | 0, _ => none
  | fuel + 1, p => do
      let (t1, p) ← expr4 fuel p
      match t1 with
      | none => some (none, p)
      | some t1 =>
        match p.lookahead with
        | .clos0 => do
            let p ← lex fuel p
            some (some (.star t1), p)
        | .clos1 => do
            let p ← lex fuel p
            some (some (.plus t1), p)
        | .quest => do
            let p ← lex fuel p
            some (some (.or t1 .epsilon), p)
        | _ => some (some t1, p)

/-- `expr_4`; `L_WILD` has no `break`, so its tree is dropped. -/
def expr4 : Nat → DfaParse → Option (Option Tnode × DfaParse)
  | 0, _ => none
  | fuel + 1, p =>
    match p.lookahead with
    | .lp => do
        let p ← lex fuel p
        let (t1, p) ← expr1 fuel p
        match t1 with
        | none => some (none, p)
        | some t1 =>
          if p.lookahead = .rp then do
            let p ← lex fuel p
            some (some t1, p)
          else some (none, p)
    | .char => do
        let t1 := Tnode.leaf (p.position + 1) p.lookCh p.lookCh
        let p ← lex fuel { p with position := p.position + 1 }
        some (some t1, p)
    | .chars => do
        let (t1, p) := mkCset p.lookChars p
        let p ← lex fuel p
        some (some t1, p)
    | .any => do
        let (t1, p) := mkCset p.anyset p
        let p ← lex fuel p
        some (some t1, p)
    | .anyz => do
        let (t1, p) := mkCset p.anyset p
        let p ← lex fuel p
        some (some (.or t1 .epsilon), p)
    | .wild => do
        let (_, p) := mkCset p.anyset p
        let p ← lex fuel p
        some (none, p)
    | _ => some (none, p)

end

/-- `DFA_ERR_SYNTAX`, `DFA_ERR_LP`, `DFA_ERR_RP` -/
inductive DfaErr where
  | errSyntax
  | errLp
  | errRp
  deriving DecidableEq

/-- The `err_code` of a pattern that is not parsed to its end. -/
def parseError (p : DfaParse) : DfaErr :=
  if p.lookahead = .rp then .errRp else if p.lookahead = .lp then .errLp else .errSyntax

/-- What `do_parse` parses between the anchors: the expression and, for `$`, a newline. -/
def parseBody (fuel : Nat) (p : DfaParse) : Option (Option Tnode × DfaParse) :=
  if p.lookahead = .endAnchor then do
    let t1 := Tnode.leaf (p.position + 1) 10 10
    let p ← lex fuel { p with position := p.position + 1 }
    some (some t1, p)
  else do
    let (t1, p) ← expr1 fuel p
    match t1 with
    | none => some (none, p)
    | some t1 =>
      if p.lookahead = .endAnchor then do
        let t2 := Tnode.leaf (p.position + 1) 10 10
        let p ← lex fuel { p with position := p.position + 1 }
        some (some (.cat t1 t2), p)
      else some (some t1, p)

/-- The part of `do_parse` behind the `^`: the tree of the pattern with an accepting leaf behind
it. -/
def parseRule (fuel : Nat) (startAnchorFlag : Bool) (p : DfaParse) :
    Option (Except DfaErr Tnode × DfaParse) := do
  let (t1, p) ← parseBody fuel p
  match t1 with
  | none => some (.error (parseError p), p)
  | some t1 =>
    if p.lookahead = .eos then
      let rule : Nat := p.rule + 1
      let t2 := Tnode.leaf (p.position + 1) (-rule) (if startAnchorFlag then 0 else -rule)
      some (.ok (.cat t1 t2), { p with position := p.position + 1, rule })
    else some (.error (parseError p), p)

def doParse (fuel : Nat) (p : DfaParse) (s : List Byte) :
    Option (Except DfaErr Tnode × DfaParse) := do
  let p ← lex fuel { p with exprPtr := s, insideString := false }
  if p.lookahead = .startAnchor then do
    let p ← lex fuel p
    parseRule fuel true p
  else parseRule fuel false p

end Zebra.Dfa
