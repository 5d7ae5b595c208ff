import Zebra.Dfa.Grammar

/-!
# The parser with a character map

`dfa.c` once more, now with the map that `dfa_set_cmap` sets and with the assertion of `add_BSet`.
The lexer hands single characters of a class to the map, and the rest of the pattern everywhere
else.
-/

namespace Zebra.Dfa

/-- What a run of the parser comes to. -/
inductive Outcome (α : Type) where
  | done (a : α)
  /-- An assertion has failed. -/
  | aborted
  /-- More steps are needed than were allowed. -/
  | running

instance : Monad Outcome where
  pure := .done
  bind
    | .done a, f => f a
    | .aborted, _ => .aborted
    | .running, _ => .running

/-- The function given to `dfa_set_cmap`: from a string it makes the bytes of `mapto[0]` and tells
how many bytes of the string it has used, at least one and none behind its end. -/
structure CMap where
  map : List Byte → List Byte × Nat
  advances : ∀ string, string ≠ [] → 1 ≤ (map string).2 ∧ (map string).2 ≤ string.length
  bytes : ∀ string, (∀ b ∈ string, b ≤ charsetSize) → ∀ b ∈ (map string).1, b ≤ charsetSize

namespace Mapped

/-- `add_BSet`; a negative member is a large unsigned one. -/
def addBSet (dst : BSet) (member : Int) : Outcome BSet :=
  if 0 ≤ member ∧ member ≤ charsetSize then .done (Dfa.addBSet dst member.toNat) else .aborted

/-- `for (i = ch0; ++i <= ch1;) add_BSet (..., i)`, for as many characters. -/
def addRange (dst : BSet) (i : Int) : Nat → Outcome BSet
  | 0 => .done dst
  | count + 1 => do
      let dst ← addBSet dst (i + 1)
      addRange dst (i + 1) count

/-- A byte read as a `char`, which is signed. -/
def signedChar (b : Byte) : Int := if b < 128 then b else (b : Int) - 256

/-- `mapto[0][0]` for the string of a single character; without a map the character itself. -/
def mapChar (cmap : Option CMap) (ch : Nat) : Int :=
  match cmap with
  | some cmap => signedChar ((cmap.map [ch]).1.headD 0)
  | none => ch

/-- A character of a class is taken as it is behind a character 1, else it is mapped. -/
def classChar (cmap : Option CMap) (ch : Nat) (ptr : List Byte) : Int × List Byte :=
  if ch = 1 then ((nextchar ptr).1, (nextchar ptr).2.2) else (mapChar cmap ch, ptr)

/-- The loop of `read_charset`: `ch0` is the last met character. -/
def readCharsetLoop (cmap : Option CMap) :
    Nat → BSet → Nat → Bool → List Byte → Outcome (BSet × List Byte)
  | 0, _, _, _, _ => .running
  | fuel + 1, set, ch0, esc0, ptr =>
    if ch0 = 0 then .done (set, ptr)
    else if esc0 = false ∧ ch0 = 93 then .done (set, ptr)
    else do
      let (ch0, ch1, esc1, ptr) : Int × Nat × Bool × List Byte :=
        if esc0 = false ∧ ch0 = 45 then (1, ch0, esc0, ptr)
        else
          let (ch0, ptr) := classChar cmap ch0 ptr
          (ch0, nextcharSet ptr)
      let set ← addBSet set ch0
      if esc1 = false ∧ ch1 = 45 then
        let (ch1, esc1, ptr) := nextcharSet ptr
        if ch1 = 0 then .done (set, ptr)
        else if esc1 = false ∧ ch1 = 93 then do
          -- an open range
          let set ← addRange set ch0 (255 - ch0).toNat
          .done (set, ptr)
        else do
          let (ch1, ptr) := classChar cmap ch1 ptr
          let set ← addRange set ch0 (ch1 - ch0).toNat
          let (next, esc, ptr) := nextcharSet ptr
          readCharsetLoop cmap fuel set next esc ptr
      else readCharsetLoop cmap fuel set ch1 esc1 ptr

def readCharset (cmap : Option CMap) (fuel : Nat) (p : DfaParse) :
    Outcome (Lookahead × DfaParse) := do
  let (ch0, esc0, ptr) := nextcharSet p.exprPtr
  let (cc, ch0, esc0, ptr) := if esc0 = false ∧ ch0 = 94
    then (true, nextcharSet ptr)
    else (false, ch0, esc0, ptr)
  let (set, ptr) ← readCharsetLoop cmap fuel resBSet ch0 esc0 ptr
  .done (.chars, { p with lookChars := if cc then comBSet set else set, exprPtr := ptr })

/-- `map_l_char`; `cp0` is the string one byte in front of `expr_ptr`. -/
def mapLChar (cmap : Option CMap) (cp0 : List Byte) (p : DfaParse) : Lookahead × DfaParse :=
  match cp0, cmap with
  | 1 :: ch :: rest, _ => (.char, { p with lookCh := ch, exprPtr := rest })
  | _, none => (.char, p)
  | _, some cmap =>
    (.char, { p with
      lookCh := (cmap.map cp0).1.headD 0
      exprPtr := cp0.drop (cmap.map cp0).2 })

def lexSub (cmap : Option CMap) : Nat → DfaParse → Outcome (Lookahead × DfaParse)
  | 0, _ => .running
  | fuel + 1, p =>
    let (lookCh, esc, ptr) := nextchar p.exprPtr
    let before := p.exprPtr
    let cp0 := before.drop (before.length - (ptr.length + 1))
    let p := { p with lookCh, exprPtr := ptr }
    if lookCh = 0 then .done (.eos, p)
    else if lookCh = 34 then
      if esc then .done (mapLChar cmap cp0 p)
      else lexSub cmap fuel { p with insideString := !p.insideString }
    else if esc ∨ p.insideString then .done (mapLChar cmap cp0 p)
    else if lookCh = 91 then readCharset cmap fuel p
    else
      match p.charMap.lookup lookCh with
      | some .eos => .done (.eos, { p with exprPtr := before })
      | some code => .done (code, p)
      | none => .done (mapLChar cmap cp0 p)

def lex (cmap : Option CMap) (fuel : Nat) (p : DfaParse) : Outcome DfaParse := do
  let (lookahead, p) ← lexSub cmap fuel p
  .done { p with lookahead }

mutual

/-- `expr_1`; no tree is `NULL`. -/
def expr1 (cmap : Option CMap) : Nat → DfaParse → Outcome (Option Tnode × DfaParse)
  | 0, _ => .running
  | fuel + 1, p => do
      let (t1, p) ← expr2 cmap fuel p
      match t1 with
      | none => .done (none, p)
      | some t1 => alternatives cmap fuel t1 p

/-- The loop of `expr_1`. -/
def alternatives (cmap : Option CMap) : Nat → Tnode → DfaParse → Outcome (Option Tnode × DfaParse)
  | 0, _, _ => .running
  | fuel + 1, t1, p =>
    if p.lookahead = .alt then do
      let p ← lex cmap fuel p
      let (t2, p) ← expr2 cmap fuel p
      match t2 with
      | none => .done (none, p)
      | some t2 => alternatives cmap fuel (.or t1 t2) p
    else .done (some t1, p)

def expr2 (cmap : Option CMap) : Nat → DfaParse → Outcome (Option Tnode × DfaParse)
  | 0, _ => .running
  | fuel + 1, p => do
      let (t1, p) ← expr3 cmap fuel p
      match t1 with
      | none => .done (none, p)
      | some t1 => factors cmap fuel t1 p

/-- The loop of `expr_2`. -/
def factors (cmap : Option CMap) : Nat → Tnode → DfaParse → Outcome (Option Tnode × DfaParse)
  | 0, _, _ => .running
  | fuel + 1, t1, p =>
    if p.lookahead = .wild ∨ p.lookahead = .anyz ∨ p.lookahead = .any ∨ p.lookahead = .lp ∨
        p.lookahead = .char ∨ p.lookahead = .chars then do
      let (t2, p) ← expr3 cmap fuel p
      match t2 with
      | none => .done (none, p)
      | some t2 => factors cmap fuel (.cat t1 t2) p
    else .done (some t1, p)

def expr3 (cmap : Option CMap) : Nat → DfaParse → Outcome (Option Tnode × DfaParse)
  | 0, _ => .running
  | fuel + 1, p => do
      let (t1, p) ← expr4 cmap fuel p
      match t1 with
      | none => .done (none, p)
      | some t1 =>
        match p.lookahead with
        | .clos0 => do
            let p ← lex cmap fuel p
            .done (some (.star t1), p)
        | .clos1 => do
            let p ← lex cmap fuel p
            .done (some (.plus t1), p)
        | .quest => do
            let p ← lex cmap fuel p
            .done (some (.or t1 .epsilon), p)
        | _ => .done (some t1, p)

/-- `expr_4`; `L_WILD` has no `break`, so its tree is dropped. -/
def expr4 (cmap : Option CMap) : Nat → DfaParse → Outcome (Option Tnode × DfaParse)
  | 0, _ => .running
  | fuel + 1, p =>
    match p.lookahead with
    | .lp => do
        let p ← lex cmap fuel p
        let (t1, p) ← expr1 cmap fuel p
        match t1 with
        | none => .done (none, p)
        | some t1 =>
          if p.lookahead = .rp then do
            let p ← lex cmap fuel p
            .done (some t1, p)
          else .done (none, p)
    | .char => do
        let t1 := Tnode.leaf (p.position + 1) p.lookCh p.lookCh
        let p ← lex cmap fuel { p with position := p.position + 1 }
        .done (some t1, p)
    | .chars => do
        let (t1, p) := mkCset p.lookChars p
        let p ← lex cmap fuel p
        .done (some t1, p)
    | .any => do
        let (t1, p) := mkCset p.anyset p
        let p ← lex cmap fuel p
        .done (some t1, p)
    | .anyz => do
        let (t1, p) := mkCset p.anyset p
        let p ← lex cmap fuel p
        .done (some (.or t1 .epsilon), p)
    | .wild => do
        let (_, p) := mkCset p.anyset p
        let p ← lex cmap fuel p
        .done (none, p)
    | _ => .done (none, p)

end

/-- What `do_parse` parses between the anchors: the expression and, for `$`, a newline. -/
def parseBody (cmap : Option CMap) (fuel : Nat) (p : DfaParse) :
    Outcome (Option Tnode × DfaParse) :=
  if p.lookahead = .endAnchor then do
    let t1 := Tnode.leaf (p.position + 1) 10 10
    let p ← lex cmap fuel { p with position := p.position + 1 }
    .done (some t1, p)
  else do
    let (t1, p) ← expr1 cmap fuel p
    match t1 with
    | none => .done (none, p)
    | some t1 =>
      if p.lookahead = .endAnchor then do
        let t2 := Tnode.leaf (p.position + 1) 10 10
        let p ← lex cmap fuel { p with position := p.position + 1 }
        .done (some (.cat t1 t2), p)
      else .done (some t1, p)

/-- The part of `do_parse` behind the `^`. -/
def parseRule (cmap : Option CMap) (fuel : Nat) (startAnchorFlag : Bool) (p : DfaParse) :
    Outcome (Except DfaErr Tnode × DfaParse) := do
  let (t1, p) ← parseBody cmap fuel p
  match t1 with
  | none => .done (.error (parseError p), p)
  | some t1 =>
    if p.lookahead = .eos then
      let rule : Nat := p.rule + 1
      let t2 := Tnode.leaf (p.position + 1) (-rule) (if startAnchorFlag then 0 else -rule)
      .done (.ok (.cat t1 t2), { p with position := p.position + 1, rule })
    else .done (.error (parseError p), p)

def doParse (cmap : Option CMap) (fuel : Nat) (p : DfaParse) (s : List Byte) :
    Outcome (Except DfaErr Tnode × DfaParse) := do
  let p ← lex cmap fuel { p with exprPtr := s, insideString := false }
  if p.lookahead = .startAnchor then do
    let p ← lex cmap fuel p
    parseRule cmap fuel true p
  else parseRule cmap fuel false p

/-- `dfa_parse`: the error, if there is one, the trees of all patterns parsed until now, and the
state of the parser. -/
def dfaParse (cmap : Option CMap) (fuel : Nat) (p : DfaParse) (root : Option Tnode)
    (pattern : List Byte) : Outcome (Option DfaErr × Option Tnode × DfaParse) := do
  let (top, p) ← doParse cmap fuel p pattern
  match top, root with
  | .error err, root => .done (some err, root, p)
  | .ok top, none => .done (none, some top, p)
  | .ok top, some root => .done (none, some (.or root top), p)

end Mapped

end Zebra.Dfa
