import Zebra.Lib.Varint

/-!
# XPath expressions

`xpath.c`: a path is cut into its steps, and the predicate of a step is parsed by recursive descent
with one token of lookahead.  Texts are without their terminating NUL; a pointer that has been moved
behind it is none, and a read there is a stop of its own.
-/

namespace Zebra.Xpath

/-- Where a run ends that does not return. -/
inductive Stop where
  /-- The recursion goes deeper than what has been given for it. -/
  | fuel
  /-- A character behind the terminating NUL is read. -/
  | beyond
  deriving DecidableEq

/-- Whether `strchr("><=", c)` finds `c`, which is not NUL. -/
def opChar (c : Byte) : Bool := [62, 60, 61].contains c

/-- Whether `c` ends a word. -/
def wordEnd (c : Byte) : Bool := [62, 60, 61, 40, 41, 93, 34, 32].contains c

/-- A part with `literal`. -/
structure Token where
  str : List Byte
  literal : Bool
  deriving DecidableEq

/-- What `get_xp_part` gives at `]` and at the terminating NUL. -/
def emptyToken : Token := ⟨[], false⟩

/-- `get_xp_part`, on what is left of the text.  At the terminating NUL `strchr("()", *cp)` finds
it, and `cp` goes behind it; an operator that goes to the end of the text is read on behind it. -/
def getXpPart : Option (List Byte) → Option (Token × Option (List Byte))
  | none => none
  | some strs =>
    match strs.dropWhile (· == 32) with
    | [] => some (emptyToken, none)
    | c :: cp =>
      if c = 40 ∨ c = 41 then some (⟨[c], false⟩, some cp)
      else if opChar c then
        if (c :: cp).dropWhile opChar = [] then none
        else some (⟨(c :: cp).takeWhile opChar, false⟩, some ((c :: cp).dropWhile opChar))
      else if c = 34 ∨ c = 39 then
        some (⟨cp.takeWhile (· != c), true⟩, some ((cp.dropWhile (· != c)).drop 1))
      else
        some (⟨(c :: cp).takeWhile (!wordEnd ·), false⟩, some ((c :: cp).dropWhile (!wordEnd ·)))

/-- A pointer to `struct xpath_predicate` -/
inductive XpathPredicate where
  | null
  | relation (name op value : List Byte)
  | boolean (op : List Byte) (left right : XpathPredicate)
  deriving DecidableEq

/-- The variables that the functions of the parser share. -/
structure Look where
  pr : Option (List Byte)
  look : Token

/-- `*look = get_xp_part(pr, mem, literal)` -/
def getLook (pr : Option (List Byte)) : Except Stop Look :=
  match getXpPart pr with
  | none => .error .beyond
  | some part => .ok ⟨part.2, part.1⟩

/-- Whether `strchr("><=", **look)` finds a character of the lookahead, or the NUL of an empty
one. -/
def opensOp (look : List Byte) : Bool :=
  match look with
  | [] => true
  | c :: _ => opChar c

/-- `and`, `or` or `not` -/
def booleanOp (look : Token) : Bool :=
  !look.literal && [[97, 110, 100], [111, 114], [110, 111, 116]].contains look.str

/-- The branch of `get_xpath_relation` for a name -/
def getXpathName (look : Look) : Except Stop (XpathPredicate × Look) :=
  (getLook look.pr).bind fun look₁ =>
    if !look₁.look.literal && opensOp look₁.look.str then
      (getLook look₁.pr).bind fun look₂ =>
        (getLook look₂.pr).map fun look₃ =>
          (.relation look.look.str look₁.look.str look₂.look.str, look₃)
    else .ok (.relation look.look.str [] [], look₁)

mutual

def getXpathRelation : Nat → Look → Except Stop (XpathPredicate × Look)
  | 0, _ => .error .fuel
  | fuel + 1, look =>
    if look.look = ⟨[40], false⟩ then
      (getLook look.pr).bind fun look =>
        (getXpathBoolean fuel look).bind fun res =>
          if res.2.look.str = [41] then (getLook res.2.pr).map fun look => (res.1, look)
          else .ok (.null, res.2)
    else getXpathName look

def getXpathBoolean : Nat → Look → Except Stop (XpathPredicate × Look)
  | 0, _ => .error .fuel
  | fuel + 1, look =>
    (getXpathRelation fuel look).bind fun left =>
      if left.1 = .null then .ok left else booleanLoop fuel left.1 left.2

/-- The loop of `get_xpath_boolean` -/
def booleanLoop : Nat → XpathPredicate → Look → Except Stop (XpathPredicate × Look)
  | 0, _, _ => .error .fuel
  | fuel + 1, left, look =>
    if booleanOp look.look then
      (getLook look.pr).bind fun next =>
        (getXpathRelation fuel next).bind fun right =>
          booleanLoop fuel (.boolean look.look.str left right.1) right.2
    else .ok (left, look)

end

/-- `get_xpath_predicate`, with enough for the recursion -/
def getXpathPredicate (predicate : List Byte) : Except Stop XpathPredicate :=
  (getLook (some predicate)).bind fun look =>
    (getXpathBoolean (2 * predicate.length + 2) look).map Prod.fst

structure XpathLocationStep where
  part : List Byte
  predicate : XpathPredicate
  deriving DecidableEq

/-- Whether `strchr("/[", c)` does not find `c`, which is not NUL. -/
def partChar (c : Byte) : Bool := c != 47 && c != 91

/-- The text of a predicate, at what is left of the path behind the part of a step. -/
def predicateText : List Byte → Option (List Byte)
  | [] => none
  | c :: cp => if c = 91 then some (cp.dropWhile (· == 32)) else none

def afterStep (cp : List Byte) : List Byte :=
  match predicateText cp with
  | none => cp
  | some a => (a.dropWhile (· != 93)).drop 1

def stepPredicate (cp : List Byte) : Except Stop XpathPredicate :=
  match predicateText cp with
  | none => .ok .null
  | some a => getXpathPredicate a

/-- The loop of `zebra_parse_xpath_str`, for the number of steps that are left of `max` -/
def parseSteps : Nat → List Byte → Except Stop (List XpathLocationStep)
  | 0, _ => .ok []
  | _ + 1, [] => .ok []
  | left + 1, c :: cp =>
    (stepPredicate ((c :: cp).dropWhile partChar)).bind fun predicate =>
      match afterStep ((c :: cp).dropWhile partChar) with
      | [] => .ok [⟨(c :: cp).takeWhile partChar, predicate⟩]
      | d :: rest =>
        if d = 47 then
          (parseSteps left rest).map fun steps =>
            ⟨(c :: cp).takeWhile partChar, predicate⟩ :: steps
        else .ok [⟨(c :: cp).takeWhile partChar, predicate⟩]

/-- `zebra_parse_xpath_str`: none for -1, and otherwise the steps, whose number is returned. -/
def zebraParseXpathStr (xpathString : List Byte) (max : Int) :
    Except Stop (Option (List XpathLocationStep)) :=
  if xpathString.head? = some 47 then (parseSteps max.toNat xpathString).map some else .ok none

end Zebra.Xpath
