import Zebra.Lib.Varint

/-!
# The reader of tagged text

`d1_read.c`: `data1_read_nodex` reads bytes with tags into a tree of nodes, with a stack of the
nodes that are open.  `data1_is_xmlmode` is true throughout, and `ampr` reads a byte as it is.
-/

namespace Zebra.ReadNodex

inductive ReadStop where
  /-- A loop takes more rounds than what has been given for it. -/
  | fuel
  /-- A null pointer is followed. -/
  | null
  /-- An entry of the stack is used that has not been set. -/
  | unset
  /-- An index is outside of the stack. -/
  | stack
  deriving DecidableEq

/-- The byte that has been read last, with zero at the end -/
def cur (s : List Byte) : Byte := s.headD 0

def isSpace (c : Byte) : Bool := c = 32 || c = 13 || c = 10 || c = 9 || c = 12

def tagChar (c : Byte) : Bool := c != 0 && c != 62 && c != 47 && !isSpace c

def nameChar (c : Byte) : Bool := tagChar c && c != 61

def quotedChar (quote c : Byte) : Bool := c != 0 && c != quote

def plainChar (c : Byte) : Bool := c != 0 && c != 62 && c != 47

def textChar (c : Byte) : Bool := c != 0 && c != 60

structure Xattr where
  name : List Byte
  value : Option (List Byte)
  deriving DecidableEq

/-- The value behind `=` -/
def readValue (s : List Byte) : List Byte × List Byte :=
  if cur s = 34 ∨ cur s = 39 then
    let after := s.tail.dropWhile (quotedChar (cur s))
    (s.tail.takeWhile (quotedChar (cur s)), if cur after = 0 then after else after.tail)
  else (s.takeWhile plainChar, s.dropWhile plainChar)

def readXattr : Nat → List Byte → Except ReadStop (List Xattr × List Byte)
  | 0, _ => .error .fuel
  | fuel + 1, s =>
    let begin' := s.dropWhile isSpace
    if cur begin' = 0 ∨ cur begin' = 62 ∨ cur begin' = 47 then .ok ([], begin')
    else
      let name := begin'.takeWhile nameChar
      let after := begin'.dropWhile nameChar
      if cur after = 61 then
        (readXattr fuel (readValue after.tail).2).bind fun more =>
          .ok (⟨name, some (readValue after.tail).1⟩ :: more.1, more.2)
      else (readXattr fuel after).bind fun more => .ok (⟨name, none⟩ :: more.1, more.2)

/-- `<? … >`, behind its first two bytes -/
def skipInstruction (quoteMode : Byte) : List Byte → List Byte
  | [] => []
  | c :: rest =>
    if c = 0 then c :: rest
    else if quoteMode = 0 then
      if c = 34 ∨ c = 39 then skipInstruction c rest
      else if c = 62 then rest
      else skipInstruction 0 rest
    else if c = quoteMode then skipInstruction 0 rest
    else skipInstruction quoteMode rest

/-- `<!-- … -->`, behind its first four bytes, with the text it has -/
def readComment (noDash : Nat) (wrbuf : List Byte) : List Byte → Option (List Byte) × List Byte
  | [] => (none, [])
  | c :: rest =>
    if c = 0 then (none, c :: rest)
    else if c = 45 then readComment (noDash + 1) (wrbuf ++ [c]) rest
    else if c = 62 ∧ 2 ≤ noDash then (some (wrbuf.take (wrbuf.length - 2)), rest)
    else readComment 0 (wrbuf ++ [c]) rest

/-- `<! … >`, behind its first three bytes -/
def skipDirective (blevel : Nat) : List Byte → List Byte
  | [] => []
  | c :: rest =>
    if c = 0 then c :: rest
    else if c = 62 ∧ blevel = 0 then rest
    else if c = 91 then skipDirective (blevel + 1) rest
    else if c = 93 ∧ 0 < blevel then skipDirective (blevel - 1) rest
    else skipDirective blevel rest

/-- What can begin with `<` -/
inductive Markup where
  /-- The input ends behind `<!`. -/
  | stop
  | skip (rest : List Byte)
  | comment (text rest : List Byte)
  | malformed
  | tag (endTag : Bool) (tag : List Byte) (xattr : List Xattr) (nullTag : Bool) (rest : List Byte)
  deriving DecidableEq

def readTag (endTag : Bool) (s : List Byte) : Except ReadStop Markup :=
  (readXattr (s.length + 1) (s.dropWhile tagChar)).bind fun xattr =>
    let nullTag := cur xattr.2 = 47
    let close := if nullTag then xattr.2.tail else xattr.2
    if cur close = 62 then
      .ok (.tag endTag ((s.takeWhile tagChar).take 255) xattr.1 nullTag close.tail)
    else .ok .malformed

/-- What stands behind `<` -/
def readMarkup (s : List Byte) : Except ReadStop Markup :=
  if cur s = 47 then readTag true s.tail
  else if cur s = 63 then .ok (.skip (skipInstruction 0 s.tail))
  else if cur s = 33 then
    if cur s.tail = 0 then .ok .stop
    else if cur s.tail = 45 ∧ cur s.tail.tail = 45 then
      match readComment 0 [] s.tail.tail.tail with
      | (some text, rest) => .ok (.comment text rest)
      | (none, rest) => .ok (.skip rest)
    else .ok (.skip (skipDirective 0 s.tail.tail))
  else readTag false s

/-- The part of `data1_absyn` that is used: `data1_getvartypebyct` on the variant set, where it has
one. -/
structure Absyn where
  varset : Option (List Byte → List Byte → Option Nat)

inductive Content where
  | root (type : List Byte)
  | tag (tag : List Byte) (attributes : List Xattr)
  | data (text : List Byte)
  | comment (text : List Byte)
  /-- The type of a variant with its value, where they have been set -/
  | variant (triple : Option (Nat × List Byte))
  deriving DecidableEq

/-- `data1_node`, with the numbers of its parent and its root; a node is behind the earlier children
of its parent. -/
structure Node where
  content : Content
  parent : Option Nat
  root : Nat
  deriving DecidableEq

/-- An entry of `d1_stack` -/
inductive Slot where
  | unset
  | null
  | node (id : Nat)
  deriving DecidableEq

structure State where
  nodes : List Node
  stack : Nat → Slot
  level : Nat

/-- `d1_stack[i]` -/
def State.slot (st : State) (i : Nat) : Except ReadStop (Option Nat) :=
  if i < 256 then
    match st.stack i with
    | .unset => .error .unset
    | .null => .ok none
    | .node id => .ok (some id)
  else .error .stack

/-- `d1_stack[i] = slot` -/
def State.store (st : State) (i : Nat) (slot : Slot) : Except ReadStop State :=
  if i < 256 then .ok { st with stack := fun j => if j = i then slot else st.stack j }
  else .error .stack

def State.node (st : State) : Option Nat → Except ReadStop Node
  | none => .error .null
  | some id =>
    match st.nodes[id]? with
    | none => .error .null
    | some n => .ok n

/-- The node of `d1_stack[i]` -/
def State.nodeAt (st : State) (i : Nat) : Except ReadStop Node := (st.slot i).bind st.node

/-- `data1_append_node`, without its number `st.nodes.length` -/
def State.append (st : State) (content : Content) (parent : Option Nat) : State :=
  let root := match parent.bind (st.nodes[·]?) with
    | none => st.nodes.length
    | some n => n.root
  { st with nodes := st.nodes ++ [⟨content, parent, root⟩] }

/-- `level ? d1_stack[level-1] : 0` -/
def State.parent (st : State) : Except ReadStop (Option Nat) :=
  if st.level = 0 then .ok none else st.slot (st.level - 1)

def Content.closedBy (tag : List Byte) : Content → Bool
  | .root type => tag = type
  | .tag own _ => tag = own
  | _ => false

/-- The place below `i` of the innermost node that an end tag closes -/
def findOpen (st : State) (tag : List Byte) : Nat → Except ReadStop (Option Nat)
  | 0 => .ok none
  | i + 1 =>
    (st.nodeAt i).bind fun n =>
      if n.content.closedBy tag = true then .ok (some i) else findOpen st tag i

/-- The level behind an end tag, if there is something to close; a level of -1 is 0 here, which
the reader treats alike. -/
def endLevel (st : State) (tag : List Byte) : Except ReadStop (Option Nat) :=
  if tag = [] then .ok (some (st.level - 1))
  else (findOpen st tag st.level).bind fun found =>
    match found with
    | some i => .ok (some i)
    | none => .ok (if st.level = 0 then some 0 else none)

/-- Class and type of `<var class type value>` -/
def varTriple (tag : List Byte) : List Xattr → Option (List Byte × List Byte)
  | tclass :: type :: value :: _ =>
    if tag = [118, 97, 114] ∧ tclass.value = none ∧ type.value = none ∧ value.value = none then
      some (tclass.name, type.name)
    else none
  | _ => none

/-- The level of the innermost of the variants right below `i` that has this type -/
def variantLevel (st : State) (tp : Nat) : Nat → Except ReadStop (Option Nat)
  | 0 => .error .stack
  | i + 1 =>
    (st.nodeAt i).bind fun n =>
      match n.content with
      | .variant triple =>
        if triple.map Prod.fst = some tp then .ok (some i) else variantLevel st tp i
      | _ => .ok none

/-- `parent->root->u.root.absyn->varset`, for the abstract syntaxes by the types of their roots -/
def rootVarset (getAbsyn : List Byte → Option Absyn) (st : State) (parent : Option Nat) :
    Except ReadStop (List Byte → List Byte → Option Nat) :=
  (st.node parent).bind fun n => (st.node (some n.root)).bind fun root =>
    match root.content with
    | .root type =>
      match (getAbsyn type).bind Absyn.varset with
      | none => .error .null
      | some varset => .ok varset
    | _ => .error .null

/-- The node of a variant; nothing for an unknown type. -/
def startVariant (getAbsyn : List Byte → Option Absyn) (st : State) (parent : Option Nat)
    (tclass type : List Byte) : Except ReadStop (Option State) :=
  (rootVarset getAbsyn st parent).bind fun varset =>
    match varset tclass type with
    | none => .ok none
    | some tp => (st.node parent).bind fun n =>
      match n.content with
      | .variant _ => (variantLevel st tp st.level).bind fun found =>
        .ok (some ({ st with level := found.getD st.level }.append
          (.variant (some (tp, type))) parent))
      | _ => .ok (some (st.append (.variant none) parent))

/-- The node of an element, with a root above the outermost one -/
def startElement (st : State) (parent : Option Nat) (tag : List Byte) (xattr : List Xattr) :
    Except ReadStop State :=
  if st.level = 0 then
    ((st.append (.root tag) none).store 0 (.node st.nodes.length)).bind fun st' =>
      .ok ({ st' with level := 1 }.append (.tag tag xattr) (some st.nodes.length))
  else .ok (st.append (.tag tag xattr) parent)

/-- The last node is put on the stack, and stays there unless its tag is empty. -/
def push (st : State) (nullTag : Bool) : Except ReadStop State :=
  (st.store st.level (.node (st.nodes.length - 1))).bind fun st₁ =>
    (st₁.store (st.level + 1) .null).bind fun st₂ =>
      .ok (if st.level < 250 ∧ nullTag = false then { st₂ with level := st.level + 1 } else st₂)

inductive Round where
  /-- The reader returns a node, or nothing. -/
  | returns (res : Option Nat) (nodes : List Node)
  | next (st : State) (rest : List Byte)

def endRound (st : State) (tag rest : List Byte) : Except ReadStop Round :=
  (endLevel st tag).bind fun found =>
    match found with
    | none => .ok (.returns none st.nodes)
    | some level =>
      if level ≤ 1 then (st.slot 0).bind fun res => .ok (.returns res st.nodes)
      else .ok (.next { st with level := level } rest)

def startRound (getAbsyn : List Byte → Option Absyn) (st : State) (parent : Option Nat)
    (tag : List Byte) (xattr : List Xattr) (nullTag : Bool) (rest : List Byte) :
    Except ReadStop Round :=
  match varTriple tag xattr with
  | some (tclass, type) =>
    (startVariant getAbsyn st parent tclass type).bind fun made =>
      match made with
      | none => .ok (.next st rest)
      | some st' => (push st' nullTag).bind fun st'' => .ok (.next st'' rest)
  | none =>
    (startElement st parent tag xattr).bind fun st' =>
      (push st' nullTag).bind fun st'' => .ok (.next st'' rest)

def commentRound (st : State) (text rest : List Byte) : Except ReadStop Round :=
  if st.level = 0 then .ok (.next st rest)
  else (st.slot (st.level - 1)).bind fun parent =>
    ((st.append (.comment text) parent).store st.level (.node st.nodes.length)).bind fun st' =>
      .ok (.next st' rest)

def textRound (st : State) (parent : Option Nat) (s : List Byte) : Except ReadStop Round :=
  if st.level = 0 then .ok (.next st s.tail)
  else ((st.append (.data (s.takeWhile textChar)) parent).store st.level
      (.node st.nodes.length)).bind fun st' => .ok (.next st' (s.dropWhile textChar))

/-- What begins with `<` -/
def markupRound (getAbsyn : List Byte → Option Absyn) (st : State) (parent : Option Nat) :
    Markup → Except ReadStop Round
  | .stop => .ok (.returns none st.nodes)
  | .skip rest => .ok (.next st rest)
  | .comment text rest => commentRound st text rest
  | .malformed => .ok (.returns none st.nodes)
  | .tag true tag _ _ rest => endRound st tag rest
  | .tag false tag xattr nullTag rest => startRound getAbsyn st parent tag xattr nullTag rest

def round (getAbsyn : List Byte → Option Absyn) (st : State) (s : List Byte) :
    Except ReadStop Round :=
  if cur s = 0 then .ok (.returns none st.nodes)
  else st.parent.bind fun parent =>
    if cur s = 60 then (readMarkup s.tail).bind (markupRound getAbsyn st parent)
    else textRound st parent s

def rounds (getAbsyn : List Byte → Option Absyn) :
    Nat → State → List Byte → Except ReadStop (Option Nat × List Node)
  | 0, _, _ => .error .fuel
  | fuel + 1, st, s =>
    (round getAbsyn st s).bind fun r =>
      match r with
      | .returns res nodes => .ok (res, nodes)
      | .next st' rest => rounds getAbsyn fuel st' rest

def State.start : State := ⟨[], fun i => if i = 0 then .null else .unset, 0⟩

/-- `data1_read_nodex`: the node that is returned, with the nodes that have been made -/
def data1ReadNodex (getAbsyn : List Byte → Option Absyn) (s : List Byte) :
    Except ReadStop (Option Nat × List Node) :=
  rounds getAbsyn (s.length + 1) .start s

end Zebra.ReadNodex
