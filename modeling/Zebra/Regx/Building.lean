import Mathlib.Data.List.Flatten
import Zebra.Lib.Varint

/-!
# Building a record

What the commands of a rule do to the record, the stack of its open nodes and the texts that are
gathered at each level.
-/

namespace Zebra.Regx.Building

open List Function Option

/-- `maxLevel` -/
def maxLevel : Nat := 128

def contextStackSize : Nat := 100

/-- `data1_node`, by `which`; attributes are left out. -/
inductive Kind where
  | root (absyn : List Byte)
  | tag (tag : List Byte)
  | variant (type : Option Nat) (value : List Byte)
  | text (len : Nat) (data : Option (List Byte))
  deriving DecidableEq

structure Node where
  parent : Option Nat
  which : Kind

/-- The nodes are in the order in which they are made, and the stack has their places.  `appended`
is not of the code: it lists the texts with the nodes that they are appended to. -/
structure LexSpec where
  nodes : List Node
  d1Stack : Nat → Option Nat
  d1Level : Nat
  concatBuf : Nat → List Byte
  contextStack : Nat → Option Nat
  contextStackTop : Nat
  stopFlag : Bool
  appended : List (Nat × List Byte)

/-- A place outside of an array, a null pointer, or a failed assertion -/
inductive Fault where
  | bounds | null | assertion

def LexSpec.kind (s : LexSpec) (n : Nat) : Option Kind := (s.nodes[n]?).map Node.which

def LexSpec.kindAt (s : LexSpec) (i : Nat) : Option Kind := (s.d1Stack i).bind s.kind

/-- A node of the stack that is dereferenced -/
def LexSpec.deref (s : LexSpec) (i : Nat) : Except Fault (Nat × Kind) :=
  if i < maxLevel then
    match s.d1Stack i with
    | none => .error .null
    | some n => ((s.kind n).map fun which => (n, which)).elim (.error .null) .ok
  else .error .bounds

def LexSpec.pushed (s : LexSpec) (parent : Nat) (which : Kind) : LexSpec :=
  { s with
    nodes := s.nodes ++ [⟨some parent, which⟩]
    d1Stack := Function.update (Function.update s.d1Stack s.d1Level (some s.nodes.length))
      (s.d1Level + 1) none
    d1Level := s.d1Level + 1 }

/-- A node is made and pushed. -/
def LexSpec.push (s : LexSpec) (parent : Nat) (which : Kind) : Except Fault LexSpec :=
  if s.d1Level + 1 < maxLevel then .ok (s.pushed parent which) else .error .bounds

def LexSpec.setKind (s : LexSpec) (n : Nat) (which : Kind) : LexSpec :=
  { s with nodes := s.nodes.modify n fun node => { node with which } }

/-- A text without data is made. -/
def LexSpec.newText (s : LexSpec) (parent : Nat) : LexSpec :=
  { s with
    nodes := s.nodes ++ [⟨some parent, .text 0 none⟩]
    d1Stack := Function.update s.d1Stack s.d1Level (some s.nodes.length) }

/-- What lies in a buffer behind the text is not kept. -/
def LexSpec.append (s : LexSpec) (n len : Nat) (data : Option (List Byte)) (ebuf : List Byte) :
    LexSpec :=
  { s.setKind n (.text (len + ebuf.length) data) with
    concatBuf := Function.update s.concatBuf s.d1Level ((s.concatBuf s.d1Level).take len ++ ebuf)
    appended := s.appended ++ [(n, ebuf)] }

def execData (inTag : Bool) (s : LexSpec) (ebuf : List Byte) : Except Fault LexSpec :=
  if ebuf = [] ∨ s.d1Level ≤ 1 then .ok s
  else do
    let (parent, _) ← s.deref (s.d1Level - 1)
    if inTag then .ok s
    else if s.d1Level < maxLevel then
      match s.d1Stack s.d1Level, s.kindAt s.d1Level with
      | some n, some (.text len data) => .ok (s.append n len data ebuf)
      | _, _ => .ok ((s.newText parent).append s.nodes.length 0 none ebuf)
    else .error .bounds

def tagDataRelease (s : LexSpec) : Except Fault LexSpec :=
  if s.d1Level < maxLevel then
    match s.d1Stack s.d1Level, s.kindAt s.d1Level with
    | some n, some (.text len data) =>
      if data = none ∧ 0 < len then
        .ok (s.setKind n (.text len (some ((s.concatBuf s.d1Level).take len))))
      else .error .assertion
    | _, _ => .ok s
  else .error .bounds

/-- `isspace` in the C locale, and `tagStrip` -/
def tagStrip (tag : List Byte) : List Byte :=
  let isspace (c : Byte) : Bool := c = 32 || (9 ≤ c && c ≤ 13)
  (tag.reverse.dropWhile isspace).reverse.dropWhile isspace

def tagBegin (s : LexSpec) (tag : List Byte) : Except Fault LexSpec :=
  if s.d1Level = 0 then .ok s
  else do
    let s ← tagDataRelease s
    let (parent, _) ← s.deref (s.d1Level - 1)
    s.push parent (.tag (tagStrip tag))

/-- The loop of `tagEnd`, a round for each level -/
def tagEndLoop (minLevel : Nat) (tag : Option (List Byte)) : Nat → LexSpec → Except Fault LexSpec
  | 0, s => .ok s
  | rounds + 1, s =>
    if s.d1Level > minLevel then do
      let s ← tagDataRelease s
      let s := { s with d1Level := s.d1Level - 1 }
      if s.d1Level = 0 then .ok s
      else
        match ← s.deref s.d1Level with
        | (_, .tag name) =>
          if tag = none ∨ tag = some name then .ok s else tagEndLoop minLevel tag rounds s
        | _ => tagEndLoop minLevel tag rounds s
    else .ok s

def tagEnd (s : LexSpec) (minLevel : Nat) (tag : Option (List Byte)) : Except Fault LexSpec :=
  tagEndLoop minLevel (tag.map tagStrip) s.d1Level s

/-- The loop at the end of a record, a round for each level -/
def endLoop : Nat → LexSpec → Except Fault LexSpec
  | 0, s => .ok s
  | rounds + 1, s => do
    let s ← tagDataRelease s
    endLoop rounds { s with d1Level := s.d1Level - 1 }

/-- The loop of `variantBegin` from `i` down: the level of a variant of the type -/
def variantRound (s : LexSpec) (tp i : Nat) (next : Except Fault Nat) : Except Fault Nat := do
  match ← s.deref i with
  | (_, .variant type _) => if type = some tp then .ok i else next
  | _ => .ok s.d1Level

def variantLevel (s : LexSpec) (tp : Nat) : Nat → Except Fault Nat
  | 0 => variantRound s tp 0 (.error .bounds)
  | i + 1 => variantRound s tp (i + 1) (variantLevel s tp i)

def Kind.isVariant : Kind → Bool
  | .variant _ _ => true
  | _ => false

/-- The second half of `variantBegin` -/
def typedVariant (s : LexSpec) (tp : Nat) (value_str : List Byte) : Except Fault LexSpec := do
  let level ← variantLevel s tp (s.d1Level - 1)
  let s := { s with d1Level := level }
  let (parent, _) ← s.deref (level - 1)
  (← tagDataRelease s).push parent (.variant (some tp) (value_str.take 11))

variable (getvartype : List Byte → List Byte → Option Nat)

/-- `variantBegin`; `data1_getvartypeby_absyn` is a parameter. -/
def variantBegin (s : LexSpec) (class_str type_str value_str : List Byte) : Except Fault LexSpec :=
  -- `d1_stack[d1_level - 1]` is read in any case
  if s.d1Level = 0 then .error .bounds
  else do
    let (parent, which) ← s.deref (s.d1Level - 1)
    match getvartype (class_str.take 30) (type_str.take 30) with
    | none => .ok s
    | some tp =>
      if which.isVariant then typedVariant s tp value_str
      else typedVariant (← (← tagDataRelease s).push parent (.variant none [])) tp value_str

/-- A record with a root and a tag -/
def LexSpec.begun (s : LexSpec) (absynName : List Byte) : LexSpec :=
  { s with
    nodes := s.nodes ++ [⟨none, .root absynName⟩] ++ [⟨some s.nodes.length, .tag absynName⟩]
    d1Stack := Function.update (Function.update (Function.update s.d1Stack
      0 (some s.nodes.length)) 1 (some (s.nodes.length + 1))) 2 none
    d1Level := 2 }

open LexSpec (kindAt kind)

/-- A command, with the context that it names if there is one -/
inductive Cmd where
  | beginRecord (absyn : List Byte)
  | beginElement (tag : List Byte)
  | beginVariant (class_str type_str value_str : List Byte)
  | beginContext (context : Option Nat)
  | endRecord
  | endElement (record : Bool) (tag : Option (List Byte))
  | endContext
  | data (inTag : Bool) (element : Option (List Byte)) (items : List (List Byte))
  | context (context : Option Nat)

/-- `execCode` for a command -/
def step (s : LexSpec) : Cmd → Except Fault LexSpec
  | .beginRecord absyn =>
    if s.d1Level ≤ 1 then .ok (s.begun (absyn.take 63)) else .ok s
  | .beginElement tag => tagBegin s tag
  | .beginVariant class_str type_str value_str =>
      variantBegin getvartype s class_str type_str value_str
  | .beginContext none => .ok s
  | .beginContext (some lc) =>
    if s.contextStackTop + 1 < contextStackSize then
      .ok { s with
        contextStack := Function.update s.contextStack (s.contextStackTop + 1) (some lc)
        contextStackTop := s.contextStackTop + 1 }
    else .error .bounds
  | .endRecord => do
    let s ← endLoop s.d1Level s
    .ok { s with stopFlag := true }
  | .endElement record tag => do
    let s ← tagEnd s (if record then 0 else 2) tag
    .ok { s with stopFlag := s.stopFlag || s.d1Level ≤ 1 }
  | .endContext => .ok { s with contextStackTop := s.contextStackTop - 1 }
  | .data inTag none items => items.foldlM (execData inTag) s
  | .data inTag (some element) items => do
    let s ← items.foldlM (execData inTag) (← tagBegin s element)
    tagEnd s 2 none
  | .context none => .ok s
  | .context (some lc) =>
    .ok { s with contextStack := Function.update s.contextStack s.contextStackTop (some lc) }

/-- The beginning of `lexRoot` -/
def start (main : Nat) : LexSpec where
  nodes := []
  d1Stack := fun _ => none
  d1Level := 0
  concatBuf := fun _ => []
  contextStack := fun i => if i = 0 then some main else none
  contextStackTop := 0
  stopFlag := false
  appended := []

/-- What has been appended to a node, in order -/
def textOf (appended : List (Nat × List Byte)) (n : Nat) : List Byte :=
  (appended.filter (·.1 = n)).flatMap Prod.snd

/-- The variants on top of the stack have one of the type, at level `i`. -/
def Chain (s : LexSpec) (tp i : Nat) : Prop :=
  i < s.d1Level ∧ (∃ value, s.kindAt i = some (.variant (some tp) value)) ∧
    ∀ j, i ≤ j → j < s.d1Level → ∃ type value, s.kindAt j = some (.variant type value)

/-- There is room for a command, and no text is pending where a variant replaces one of its type. -/
def Meets (s : LexSpec) : Cmd → Prop
  | .beginElement _ | .data _ (some _) _ => s.d1Level = 0 ∨ s.d1Level + 1 < maxLevel
  | .beginVariant class_str type_str _ =>
    s.d1Level ≠ 0 ∧ ∀ tp, getvartype (class_str.take 30) (type_str.take 30) = some tp →
      (∃ i, Chain s tp i) ∧ (∀ len data, s.kindAt s.d1Level ≠ some (.text len data)) ∨
      (¬∃ i, Chain s tp i) ∧
        s.d1Level + (if (s.kindAt (s.d1Level - 1)).any Kind.isVariant then 1 else 2) < maxLevel
  | .beginContext (some _) => s.contextStackTop + 1 < contextStackSize
  | _ => True

/-- The runs in which every command meets the condition -/
inductive Reached (main : Nat) : LexSpec → Prop
  | start : Reached main (start main)
  | step {s s' cmd} : Reached main s → Meets getvartype s cmd → step getvartype s cmd = .ok s' →
      Reached main s'

/-- The states of `lexRoot` behind `lexNode`: all levels are released, and then the commands of END
are executed, each of which meets the condition. -/
inductive Ended (main : Nat) : LexSpec → Prop
  | released {s s'} : Reached getvartype main s → endLoop s.d1Level s = .ok s' → Ended main s'
  | step {s s' cmd} : Ended main s → Meets getvartype s cmd → step getvartype s cmd = .ok s' →
      Ended main s'

/-- Every text has its data. -/
def TextsInPlace (s : LexSpec) : Prop :=
  ∀ n len data, s.kind n = some (.text len data) → data = some (textOf s.appended n)

/-- A text at the current level is still in its buffer. -/
def Pending (s : LexSpec) : Prop := ∃ len data, s.kindAt s.d1Level = some (.text len data)

/-- The levels are in their arrays, and a command that meets the condition has no fault. -/
def Safe (s : LexSpec) : Prop :=
  s.d1Level < maxLevel ∧ s.contextStackTop < contextStackSize ∧
    ∀ cmd, Meets getvartype s cmd → ∃ s', step getvartype s cmd = .ok s'

def Kind.isText : Kind → Bool
  | .text _ _ => true
  | _ => false

structure Base (s : LexSpec) : Prop where
  level : s.d1Level < maxLevel
  top : s.contextStackTop < contextStackSize
  below : ∀ i < s.d1Level, ∃ k, s.kindAt i = some k ∧ k.isText = false ∧
    (i = 0 → k.isVariant = false)
  known : ∀ one ∈ s.appended, one.1 < s.nodes.length

/-- Every text is in its node. -/
structure Quiet (s : LexSpec) : Prop extends Base s where
  texts : ∀ n len data, s.kind n = some (.text len data) → data = some (textOf s.appended n)

/-- Only the text of the current level is still in its buffer. -/
structure Inv (s : LexSpec) : Prop extends Base s where
  pending : ∀ n len data, s.d1Stack s.d1Level = some n → s.kind n = some (.text len data) →
    1 < s.d1Level ∧ data = none ∧ 0 < len ∧ len = (textOf s.appended n).length ∧
      s.concatBuf s.d1Level = textOf s.appended n
  texts : ∀ n len data, s.kind n = some (.text len data) →
    s.d1Stack s.d1Level = some n ∨ data = some (textOf s.appended n)

variable {getvartype} {s : LexSpec}

theorem kind_setKind (s : LexSpec) (n m : Nat) (which : Kind) :
    (s.setKind n which).kind m = if n = m then (s.kind m).map fun _ => which else s.kind m := by
  rw [kind, LexSpec.setKind, kind, getElem?_modify]
  split <;> cases s.nodes[m]? <;> rfl

theorem kind_lt {n : Nat} {k : Kind} (kind : s.kind n = some k) : n < s.nodes.length := by
  obtain ⟨node, get, -⟩ := map_eq_some_iff.mp kind
  exact (List.getElem?_eq_some_iff.mp get).1

/-- A node that is made leaves the others alone. -/
theorem kind_append {s' : LexSpec} {node : Node} (nodes : s'.nodes = s.nodes ++ [node]) (n : Nat) :
    s'.kind n = if n = s.nodes.length then some node.which else s.kind n := by
  rw [kind, nodes, kind]
  rcases lt_trichotomy n s.nodes.length with lt | rfl | gt
  · rw [getElem?_append_left lt, if_neg lt.ne]
  · rw [getElem?_concat_length, if_pos rfl]
    rfl
  · rw [if_neg gt.ne', getElem?_eq_none (by simp; omega), getElem?_eq_none gt.le]

theorem textOf_concat (appended : List (Nat × List Byte)) (n m : Nat) (w : List Byte) :
    textOf (appended ++ [(n, w)]) m = textOf appended m ++ if n = m then w else [] := by
  rw [textOf, filter_append, flatMap_append, textOf]
  by_cases same : n = m <;> simp [same]

theorem textOf_unknown (base : Base s) : textOf s.appended s.nodes.length = [] := by
  rw [textOf, filter_eq_nil_iff.mpr, flatMap_nil]
  intro one mem same
  exact (base.known one mem).ne (of_decide_eq_true same)

theorem deref_of {i : Nat} {k : Kind} (lt : i < maxLevel) (kind : s.kindAt i = some k) :
    ∃ n, s.deref i = .ok (n, k) := by
  obtain ⟨n, stack, kind⟩ := bind_eq_some_iff.mp kind
  refine ⟨n, ?_⟩
  rw [LexSpec.deref, if_pos lt, stack]
  dsimp only
  rw [kind]
  rfl

theorem kindAt_setKind {n len : Nat} {data : Option (List Byte)} {which k : Kind}
    (kind : s.kind n = some (.text len data)) (i : Nat) (not_text : k.isText = false)
    (text : which.isText = true) : (s.setKind n which).kindAt i = some k ↔ s.kindAt i = some k := by
  change (s.d1Stack i).bind (s.setKind n _).kind = _ ↔ (s.d1Stack i).bind s.kind = _
  cases s.d1Stack i with
  | none => rfl
  | some m =>
    rw [bind_some, bind_some, kind_setKind]
    split
    · next eq =>
      subst eq
      rw [kind]
      constructor
      · intro eq
        cases eq
        cases not_text.symm.trans text
      · intro eq
        cases eq
        cases not_text
    · rfl

theorem release_spec (inv : Inv s) : ∃ s', tagDataRelease s = .ok s' ∧ Quiet s' ∧
    s'.d1Level = s.d1Level ∧
    ∀ i k, k.isText = false → (s'.kindAt i = some k ↔ s.kindAt i = some k) := by
  rw [tagDataRelease, if_pos inv.level]
  by_cases text : ∃ n len data, s.d1Stack s.d1Level = some n ∧ s.kind n = some (.text len data)
  · obtain ⟨n, len, data, stack, kind⟩ := text
    obtain ⟨-, rfl, pos, len_eq, buf⟩ := inv.pending n len data stack kind
    have at_level : s.kindAt s.d1Level = some (.text len none) := by
      rw [kindAt, stack]
      exact kind
    have same (i : Nat) (k : Kind) (not_text : k.isText = false) :
        (s.setKind n (.text len (some ((s.concatBuf s.d1Level).take len)))).kindAt i = some k ↔
          s.kindAt i = some k := kindAt_setKind kind i not_text rfl
    refine ⟨s.setKind n _, by rw [stack, at_level]; exact if_pos ⟨rfl, pos⟩,
      ⟨⟨inv.level, inv.top, ?_, ?_⟩, ?_⟩, rfl, same⟩
    · intro i lt
      obtain ⟨k, at_i, not_text, root⟩ := inv.below i lt
      exact ⟨k, (same i k not_text).mpr at_i, not_text, root⟩
    · intro one mem
      exact (inv.known one mem).trans_eq (length_modify _ _ _).symm
    · intro m len' data kind'
      rw [kind_setKind] at kind'
      split at kind'
      · next eq =>
        subst eq
        rw [kind] at kind'
        cases kind'
        rw [buf, len_eq, take_length]
        rfl
      · next ne =>
        exact (inv.texts m len' data kind').resolve_left fun eq =>
          ne (some.inj (stack.symm.trans eq))
  · refine ⟨s, ?_, ⟨inv.toBase, ?_⟩, rfl, fun _ _ _ => Iff.rfl⟩
    · split
      · next n len data stack kind =>
        rw [kindAt, stack] at kind
        exact absurd ⟨n, len, data, stack, kind⟩ text
      · rfl
    · intro n len data kind
      exact (inv.texts n len data kind).resolve_left fun stack => text ⟨n, len, data, stack, kind⟩

/-- Going down to a level whose node is not a text -/
theorem Quiet.lower (quiet : Quiet s) {level : Nat} (lt : level < s.d1Level) :
    Inv { s with d1Level := level } where
  level := lt.trans quiet.level
  top := quiet.top
  below := fun i below => quiet.below i (below.trans lt)
  known := quiet.known
  pending n len data stack kind := by
    obtain ⟨k, at_level, not_text, -⟩ := quiet.below level lt
    have stack : s.d1Stack level = some n := stack
    rw [kindAt, stack, bind_some, show s.kind n = _ from kind] at at_level
    cases at_level
    cases not_text
  texts n len data kind := .inr (quiet.texts n len data kind)

theorem Quiet.push (quiet : Quiet s) (room : s.d1Level + 1 < maxLevel) (pos : s.d1Level ≠ 0)
    (parent : Nat) {which : Kind} (not_text : which.isText = false) :
    ∃ s', s.push parent which = .ok s' ∧ Inv s' ∧ s'.d1Level = s.d1Level + 1 ∧
      s'.kindAt s.d1Level = some which ∧ (∀ i < s.d1Level, s'.kindAt i = s.kindAt i) ∧
      s'.d1Stack (s.d1Level + 1) = none := by
  have top : Function.update (Function.update s.d1Stack s.d1Level (some s.nodes.length))
      (s.d1Level + 1) none s.d1Level = some s.nodes.length := by
    rw [update_of_ne (Nat.succ_ne_self _).symm, update_self]
  let s' := s.pushed parent which
  have kinds := @kind_append s s' _ rfl
  have here : s'.kindAt s.d1Level = some which := by
    rw [kindAt, show s'.d1Stack s.d1Level = _ from top, bind_some, kinds, if_pos rfl]
  have below (i : Nat) (lt : i < s.d1Level) : s'.kindAt i = s.kindAt i := by
    obtain ⟨k, at_i, -⟩ := quiet.below i lt
    obtain ⟨n, stack, kind⟩ := bind_eq_some_iff.mp at_i
    have stack' : s'.d1Stack i = some n := by
      change Function.update (Function.update s.d1Stack _ _) _ _ i = _
      rw [update_of_ne (by omega), update_of_ne lt.ne, stack]
    rw [kindAt, stack', kindAt, stack, bind_some, bind_some, kinds,
      if_neg (kind_lt kind).ne]
  have gone : s'.d1Stack (s.d1Level + 1) = none := update_self ..
  refine ⟨s', if_pos room, ⟨⟨room, quiet.top, fun i lt => ?_, fun one mem => ?_⟩, ?_, ?_⟩,
    rfl, here,
    below, gone⟩
  · rcases Nat.lt_succ_iff_lt_or_eq.mp lt with lt | rfl
    · exact (below i lt) ▸ quiet.below i lt
    · exact ⟨which, here, not_text, fun zero => absurd zero pos⟩
  · exact (quiet.known one mem).trans (by simp [s', LexSpec.pushed])
  · exact fun n len data stack _ => absurd (gone.symm.trans stack) (by simp)
  · intro n len data kind
    rw [kinds] at kind
    split at kind
    · cases kind
      cases not_text
    · exact .inr (quiet.texts n len data kind)

theorem appended_inv {n len : Nat} (base : Base s) (deep : 1 < s.d1Level) (ebuf : List Byte)
    (pos : 0 < ebuf.length) (stack : s.d1Stack s.d1Level = some n)
    (kind : s.kind n = some (.text len none))
    (others : ∀ m len data, m ≠ n → s.kind m = some (.text len data) →
      data = some (textOf s.appended m))
    (buf : (s.concatBuf s.d1Level).take len = textOf s.appended n)
    (len_eq : len = (textOf s.appended n).length) : Inv (s.append n len none ebuf) where
  level := base.level
  top := base.top
  below i lt := by
    obtain ⟨k, at_i, not_text, root⟩ := base.below i lt
    exact ⟨k, (kindAt_setKind kind i not_text rfl).mpr at_i, not_text, root⟩
  known one mem := by
    refine (?_ : one.1 < s.nodes.length).trans_eq (length_modify _ _ _).symm
    rcases mem_append.mp mem with old | new
    · exact base.known one old
    · exact mem_singleton.mp new ▸ kind_lt kind
  pending m len' data stack' kind' := by
    obtain rfl := some.inj (stack.symm.trans stack')
    have here : (s.setKind n (.text (len + ebuf.length) none)).kind n = some (.text len' data) :=
      kind'
    rw [kind_setKind, if_pos rfl, kind] at here
    cases here
    have text : textOf (s.append n len none ebuf).appended n = textOf s.appended n ++ ebuf :=
      (textOf_concat ..).trans (by rw [if_pos rfl])
    refine ⟨deep, rfl, by omega, ?_, ?_⟩
    · rw [text, length_append, len_eq]
    · rw [text, ← buf]
      exact update_self ..
  texts m len' data kind' := by
    rcases eq_or_ne m n with rfl | ne
    · exact .inl stack
    · have there : (s.setKind n (.text (len + ebuf.length) none)).kind m = some
        (.text len' data) := kind'
      rw [kind_setKind, if_neg ne.symm] at there
      refine .inr ((others m len' data ne there).trans (congrArg some ?_))
      exact ((textOf_concat ..).trans (by rw [if_neg ne.symm, append_nil])).symm

theorem execData_spec (inv : Inv s) (inTag : Bool) (ebuf : List Byte) :
    ∃ s', execData inTag s ebuf = .ok s' ∧ Inv s' ∧ s'.d1Level = s.d1Level := by
  rw [execData]
  split
  · exact ⟨s, rfl, inv, rfl⟩
  · next some_text =>
    obtain ⟨ne, deep⟩ := not_or.mp some_text
    have pos := length_pos_of_ne_nil ne
    have low : s.d1Level - 1 < s.d1Level := by omega
    obtain ⟨k, at_parent, -⟩ := inv.below _ low
    obtain ⟨parent, deref⟩ := deref_of (low.trans inv.level) at_parent
    rw [deref]
    cases inTag with
    | true => exact ⟨s, rfl, inv, rfl⟩
    | false =>
      change ∃ s', (if s.d1Level < maxLevel then _ else _) = _ ∧ _
      rw [if_pos inv.level]
      split
      · next n len data stack kind =>
        rw [kindAt, stack, bind_some] at kind
        obtain ⟨-, rfl, -, len_eq, buf⟩ := inv.pending n len data stack kind
        refine ⟨_, rfl, appended_inv inv.toBase (by omega) ebuf pos stack kind ?_ ?_ len_eq, rfl⟩
        · intro m len' data ne kind
          exact (inv.texts m len' data kind).resolve_left fun eq =>
            ne (some.inj (eq.symm.trans stack))
        · rw [len_eq, buf, take_length]
      · next fresh =>
        refine ⟨_, rfl, ?_, rfl⟩
        let s' := s.newText parent
        have kinds := @kind_append s s' _ rfl
        have base : Base s' := by
          refine ⟨inv.level, inv.top, fun i lt => ?_, fun one mem =>
            (inv.known one mem).trans (by simp [s', LexSpec.newText])⟩
          obtain ⟨k, at_i, other⟩ := inv.below i lt
          obtain ⟨n, stack, kind⟩ := bind_eq_some_iff.mp at_i
          refine ⟨k, ?_, other⟩
          rw [kindAt, show s'.d1Stack i = some n from (update_of_ne lt.ne ..).trans stack,
            bind_some, kinds, if_neg (kind_lt kind).ne, kind]
        refine @appended_inv s' s.nodes.length 0 base (not_le.mp deep) ebuf pos (update_self ..)
          ((kinds _).trans (if_pos rfl)) (fun m len data ne kind => ?_) ?_ ?_
        · rw [kinds, if_neg ne] at kind
          refine (inv.texts m len data kind).resolve_left fun stack => fresh m len data stack ?_
          rw [kindAt, stack]
          exact kind
        · exact (textOf_unknown inv.toBase).symm
        · exact congrArg List.length (textOf_unknown inv.toBase).symm

theorem execData_items (inv : Inv s) (inTag : Bool) (items : List (List Byte)) :
    ∃ s', items.foldlM (execData inTag) s = .ok s' ∧ Inv s' := by
  induction items generalizing s with
  | nil => exact ⟨s, rfl, inv⟩
  | cons item items ih =>
    obtain ⟨s1, eq, inv1, -⟩ := execData_spec inv inTag item
    rw [foldlM_cons, eq]
    exact ih inv1

theorem tagBegin_spec (inv : Inv s) (tag : List Byte)
    (room : s.d1Level = 0 ∨ s.d1Level + 1 < maxLevel) : ∃ s', tagBegin s tag = .ok s' ∧ Inv s' := by
  rw [tagBegin]
  split
  · exact ⟨s, rfl, inv⟩
  · next pos =>
    obtain ⟨s1, release, quiet, level, -⟩ := release_spec inv
    have low : s1.d1Level - 1 < s1.d1Level := by omega
    obtain ⟨k, at_parent, -⟩ := quiet.below _ low
    obtain ⟨parent, deref⟩ := deref_of (low.trans quiet.level) at_parent
    obtain ⟨s2, push, inv2, -⟩ := quiet.push (by rw [level]; exact room.resolve_left pos)
      (level.trans_ne pos) parent (rfl : (Kind.tag (tagStrip tag)).isText = false)
    refine ⟨s2, ?_, inv2⟩
    rw [release]
    change (s1.deref (s1.d1Level - 1)).bind _ = _
    rw [deref]
    exact push

theorem tagEndLoop_spec (minLevel : Nat) (tag : Option (List Byte)) (rounds : Nat) (inv : Inv s) :
    ∃ s', tagEndLoop minLevel tag rounds s = .ok s' ∧ Inv s' := by
  induction rounds generalizing s with
  | zero => exact ⟨s, rfl, inv⟩
  | succ rounds ih =>
    rw [tagEndLoop]
    split
    · next above =>
      obtain ⟨s1, release, quiet, level, -⟩ := release_spec inv
      have low : s1.d1Level - 1 < s1.d1Level := by omega
      have inv' := quiet.lower low
      obtain ⟨k, at_level, -⟩ := quiet.below _ low
      obtain ⟨n, deref⟩ := deref_of (low.trans quiet.level) at_level
      rw [release]
      change ∃ s', (if s1.d1Level - 1 = 0 then _ else _) = _ ∧ _
      split
      · exact ⟨_, rfl, inv'⟩
      · change ∃ s', ((s1.deref (s1.d1Level - 1)).bind _) = _ ∧ _
        rw [deref]
        cases k with
        | tag name =>
          change ∃ s', (if tag = none ∨ tag = some name then _ else _) = _ ∧ _
          split
          · exact ⟨_, rfl, inv'⟩
          · exact ih inv'
        | root _ | variant _ _ | text _ _ => exact ih inv'
    · exact ⟨s, rfl, inv⟩

theorem endLoop_spec (rounds : Nat) (inv : Inv s) (level : s.d1Level = rounds) :
    ∃ s', endLoop rounds s = .ok s' ∧ Inv s' ∧ s'.d1Level = 0 := by
  induction rounds generalizing s with
  | zero => exact ⟨s, rfl, inv, level⟩
  | succ rounds ih =>
    obtain ⟨s1, release, quiet, level1, -⟩ := release_spec inv
    rw [endLoop, release]
    exact ih (quiet.lower (by omega)) (by dsimp only; omega)

/-- A variant of another type -/
def Other (s : LexSpec) (tp j : Nat) : Prop :=
  ∃ type value, s.kindAt j = some (.variant type value) ∧ type ≠ some tp

/-- The level that the next variant goes to -/
def Goes (s : LexSpec) (tp l : Nat) : Prop :=
  l = s.d1Level ∧ (¬∃ i, Chain s tp i) ∨ Chain s tp l

theorem variantRound_spec (base : Base s) {tp i : Nat} (lt : i < s.d1Level)
    (above : ∀ j, i < j → j < s.d1Level → Other s tp j) (next : Except Fault Nat) :
    (∃ l, variantRound s tp i next = .ok l ∧ Goes s tp l) ∨
      i ≠ 0 ∧ variantRound s tp i next = next ∧ Other s tp i := by
  obtain ⟨k, at_i, -, root⟩ := base.below i lt
  obtain ⟨n, deref⟩ := deref_of (lt.trans base.level) at_i
  rw [variantRound, deref]
  have stop (other : k.isVariant = false) : ¬∃ i, Chain s tp i := by
    rintro ⟨l, l_lt, ⟨value, at_l⟩, chain⟩
    rcases le_or_gt l i with le | gt
    · obtain ⟨type, value, eq⟩ := chain i le lt
      cases at_i.symm.trans eq
      cases other
    · obtain ⟨type, value', eq, ne⟩ := above l gt l_lt
      cases at_l.symm.trans eq
      exact ne rfl
  cases k with
  | variant type value =>
    change (∃ l, (if type = some tp then _ else _) = _ ∧ _) ∨
      _ ∧ (if type = some tp then _ else _) = _ ∧ _
    by_cases same : type = some tp
    · subst same
      refine .inl ⟨i, if_pos rfl, .inr ⟨lt, ⟨value, at_i⟩, fun j le j_lt => ?_⟩⟩
      rcases le.eq_or_lt with rfl | gt
      · exact ⟨_, _, at_i⟩
      · obtain ⟨type, value, eq, -⟩ := above j gt j_lt
        exact ⟨type, value, eq⟩
    · exact .inr ⟨fun zero => Bool.noConfusion (root zero), if_neg same, type, value, at_i, same⟩
  | root _ | tag _ | text _ _ => exact .inl ⟨_, rfl, .inl ⟨rfl, stop rfl⟩⟩

theorem variantLevel_spec (base : Base s) {tp i : Nat} (lt : i < s.d1Level)
    (above : ∀ j, i < j → j < s.d1Level → Other s tp j) :
    ∃ l, variantLevel s tp i = .ok l ∧ Goes s tp l := by
  induction i with
  | zero => exact (variantRound_spec base lt above _).resolve_right fun more => more.1 rfl
  | succ i ih =>
    rcases variantRound_spec base lt above (variantLevel s tp i) with found | ⟨-, eq, other⟩
    · exact found
    · rw [variantLevel, eq]
      refine ih (Nat.lt_of_succ_lt lt) fun j gt j_lt => ?_
      rcases Nat.eq_or_lt_of_le gt with rfl | gt
      · exact other
      · exact above j gt j_lt

theorem typedVariant_spec {tp level : Nat} (found : variantLevel s tp (s.d1Level - 1) = .ok level)
    (inv : Inv { s with d1Level := level }) (room : level + 1 < maxLevel) (pos : level ≠ 0)
    (value_str : List Byte) : ∃ s', typedVariant s tp value_str = .ok s' ∧ Inv s' := by
  have low : level - 1 < level := by omega
  obtain ⟨k, at_parent, -⟩ := inv.below _ low
  obtain ⟨n, deref⟩ := deref_of (low.trans inv.level) at_parent
  obtain ⟨s1, release, quiet, level_eq, -⟩ := release_spec inv
  obtain ⟨s2, push, inv2, -⟩ := quiet.push (level_eq.symm ▸ room) (level_eq.trans_ne pos) n
    (rfl : (Kind.variant (some tp) (value_str.take 11)).isText = false)
  refine ⟨s2, ?_, inv2⟩
  rw [typedVariant, found]
  change (LexSpec.deref _ (level - 1)).bind _ = _
  rw [deref]
  change (tagDataRelease _).bind _ = _
  rw [release]
  exact push

theorem variantBegin_spec (inv : Inv s) (class_str type_str value_str : List Byte)
    (meets : Meets getvartype s (.beginVariant class_str type_str value_str)) :
    ∃ s', variantBegin getvartype s class_str type_str value_str = .ok s' ∧ Inv s' := by
  obtain ⟨pos, room⟩ := meets
  have low : s.d1Level - 1 < s.d1Level := by omega
  obtain ⟨which, at_parent, -, root⟩ := inv.below _ low
  obtain ⟨parent, deref⟩ := deref_of (low.trans inv.level) at_parent
  rw [variantBegin, if_neg pos, deref]
  cases type : getvartype (class_str.take 30) (type_str.take 30) with
  | none => exact ⟨s, rfl, inv⟩
  | some tp =>
    have room := room tp type
    rw [at_parent] at room
    change ∃ s', (if which.isVariant = true then typedVariant s tp value_str else
      (tagDataRelease s).bind fun s => (s.push parent (.variant none [])).bind fun s =>
        typedVariant s tp value_str) = _ ∧ _
    by_cases isVariant : which.isVariant = true
    · rw [if_pos isVariant]
      obtain ⟨level, found, goes⟩ :=
        @variantLevel_spec s inv.toBase tp _ low fun j gt lt => absurd lt (by omega)
      rcases goes with ⟨rfl, none⟩ | chain
      · have one := (room.resolve_left fun found => none found.1).2
        rw [any_some, if_pos isVariant] at one
        exact typedVariant_spec found inv one pos value_str
      · have no_text := (room.resolve_right fun none => none.1 ⟨level, chain⟩).2
        have quiet : Quiet s := ⟨inv.toBase, fun n len data kind =>
          (inv.texts n len data kind).resolve_left fun stack =>
            no_text len data (by rw [kindAt, stack]; exact kind)⟩
        refine typedVariant_spec found (quiet.lower chain.1)
          ((Nat.succ_le_of_lt chain.1).trans_lt inv.level) ?_ value_str
        rintro rfl
        obtain ⟨k, at_root, -, root⟩ := inv.below 0 chain.1
        obtain ⟨value, eq⟩ := chain.2.1
        cases at_root.symm.trans eq
        exact Bool.noConfusion (root rfl)
    · rw [if_neg isVariant]
      have none : ¬∃ i, Chain s tp i := by
        rintro ⟨i, lt, -, chain⟩
        obtain ⟨type, value, eq⟩ := chain _ (Nat.le_sub_one_of_lt lt) low
        cases at_parent.symm.trans eq
        exact isVariant rfl
      have two := (room.resolve_left fun found => none found.1).2
      rw [any_some, if_neg isVariant] at two
      obtain ⟨s1, release, quiet, level1, kinds⟩ := release_spec inv
      obtain ⟨s2, push, inv2, level2, here, below, -⟩ := quiet.push (by omega) (level1.trans_ne pos)
        parent (rfl : (Kind.variant .none []).isText = false)
      obtain ⟨level, found, goes⟩ :=
        @variantLevel_spec s2 inv2.toBase tp (s2.d1Level - 1) (by omega)
        fun j gt lt => absurd lt (by omega)
      rw [release]
      change ∃ s', ((s1.push parent (.variant .none [])).bind _) = _ ∧ _
      rw [push]
      rcases goes with ⟨rfl, -⟩ | ⟨lt, ⟨value, typed⟩, chain⟩
      · exact typedVariant_spec found inv2 (by omega) (by omega) value_str
      · rcases Nat.lt_succ_iff_lt_or_eq.mp (level2 ▸ lt) with deep | rfl
        · obtain ⟨type, value, eq⟩ := chain (s.d1Level - 1) (by omega) (by omega)
          rw [below _ (by omega), kinds _ _ rfl, at_parent] at eq
          cases eq
          exact absurd rfl isVariant
        · cases here.symm.trans typed

theorem begun_inv (inv : Inv s) (outside : s.d1Level ≤ 1) (absyn : List Byte) :
    Inv (s.begun absyn) := by
  let s1 : LexSpec := { s with nodes := s.nodes ++ [⟨none, .root absyn⟩] }
  have root := @kind_append s s1 _ rfl
  have length : s1.nodes.length = s.nodes.length + 1 := length_append
  have kinds (n : Nat) : (s.begun absyn).kind n = if n = s.nodes.length + 1 then some (.tag absyn)
      else if n = s.nodes.length then some (.root absyn) else s.kind n := by
    rw [kind_append (s := s1) rfl, root, length]
  refine ⟨⟨(by decide : 2 < maxLevel), inv.top, fun i lt => ?_, fun one mem => ?_⟩,
    fun n len data stack _ => ?_, fun n len data kind => .inr ?_⟩
  · obtain rfl | rfl : i = 0 ∨ i = 1 := by
      have lt : i < 2 := lt
      omega
    · refine ⟨.root absyn, ?_, rfl, fun _ => rfl⟩
      exact (kinds s.nodes.length).trans (by rw [if_neg (by omega), if_pos rfl])
    · refine ⟨.tag absyn, ?_, rfl, fun _ => rfl⟩
      exact (kinds (s.nodes.length + 1)).trans (if_pos rfl)
  · exact (inv.known one mem).trans (by simp [LexSpec.begun])
  · exact absurd stack (by simp [LexSpec.begun])
  · rw [kinds] at kind
    split at kind
    · cases kind
    · split at kind
      · cases kind
      · refine (inv.texts n len data kind).resolve_left fun stack => ?_
        exact absurd (inv.pending n len data stack kind).1 (not_lt.mpr outside)

/-- Every command that meets the condition does what it does without a fault. -/
theorem step_spec (inv : Inv s) (cmd : Cmd) (meets : Meets getvartype s cmd) :
    ∃ s', step getvartype s cmd = .ok s' ∧ Inv s' := by
  cases cmd with
  | beginRecord absyn =>
    rw [step]
    split
    · next outside => exact ⟨_, rfl, begun_inv inv outside _⟩
    · exact ⟨s, rfl, inv⟩
  | beginElement tag => exact tagBegin_spec inv tag meets
  | beginVariant class_str type_str value_str => exact variantBegin_spec inv _ _ _ meets
  | beginContext context =>
    cases context with
    | none => exact ⟨s, rfl, inv⟩
    | some lc => exact ⟨_, if_pos meets, { inv with top := meets }⟩
  | endRecord =>
    obtain ⟨s', eq, inv', -⟩ := endLoop_spec s.d1Level inv rfl
    exact ⟨{ s' with stopFlag := true }, by rw [step, eq]; rfl, { inv' with }⟩
  | endElement record tag =>
    obtain ⟨s', eq, inv'⟩ :=
      tagEndLoop_spec (if record then 0 else 2) (tag.map tagStrip) s.d1Level inv
    exact ⟨{ s' with stopFlag := s'.stopFlag || s'.d1Level ≤ 1
      }, by rw [step, tagEnd, eq]; rfl, { inv' with }⟩
  | endContext => exact ⟨_, rfl, { inv with top := (Nat.sub_le _ _).trans_lt inv.top }⟩
  | data inTag element items =>
    cases element with
    | none => exact execData_items inv inTag items
    | some element =>
      obtain ⟨s1, tagged, inv1⟩ := tagBegin_spec inv element meets
      obtain ⟨s2, written, inv2⟩ := execData_items inv1 inTag items
      obtain ⟨s3, ended, inv3⟩ := tagEndLoop_spec 2 none s2.d1Level inv2
      refine ⟨s3, ?_, inv3⟩
      rw [step, tagged]
      change (items.foldlM (execData inTag) s1).bind _ = _
      rw [written]
      exact ended
  | context context =>
    cases context with
    | none => exact ⟨s, rfl, inv⟩
    | some lc => exact ⟨_, rfl, { inv with }⟩

theorem Inv.safe (inv : Inv s) : Safe getvartype s := by
  refine ⟨inv.level, inv.top, fun cmd meets => ?_⟩
  obtain ⟨s', eq, -⟩ := step_spec inv cmd meets
  exact ⟨s', eq⟩

theorem Inv.textsInPlace_iff (inv : Inv s) : TextsInPlace s ↔ ¬ Pending s := by
  constructor
  · rintro texts ⟨len, data, pending⟩
    obtain ⟨n, stack, kind⟩ := bind_eq_some_iff.mp pending
    obtain ⟨-, rfl, -⟩ := inv.pending n len data stack kind
    cases texts n len none kind
  · intro none n len data kind
    refine (inv.texts n len data kind).resolve_left fun stack => none ⟨len, data, ?_⟩
    rw [kindAt, stack]
    exact kind

theorem Reached.inv {main : Nat} (reached : Reached getvartype main s) : Inv s := by
  induction reached with
  | start =>
    refine ⟨⟨(by decide : 0 < maxLevel), (by decide : 0 < contextStackSize),
        fun i lt => absurd lt (Nat.not_lt_zero i), fun one mem => ?_⟩,
      fun n len data stack _ => ?_, fun n len data kind => ?_⟩
    · exact absurd mem not_mem_nil
    · exact absurd stack (by simp [Building.start])
    · exact absurd (kind_lt kind) (Nat.not_lt_zero n)
  | step _ meets eq ih =>
    obtain ⟨s', eq', inv'⟩ := step_spec ih _ meets
    cases eq.symm.trans eq'
    exact inv'

theorem Ended.inv {main : Nat} (ended : Ended getvartype main s) : Inv s := by
  induction ended with
  | released reached eq =>
    obtain ⟨s', eq', inv', -⟩ := endLoop_spec _ reached.inv rfl
    cases eq.symm.trans eq'
    exact inv'
  | step _ meets eq ih =>
    obtain ⟨s', eq', inv'⟩ := step_spec ih _ meets
    cases eq.symm.trans eq'
    exact inv'

/-- The commands `begin record a; data d; begin element b; data e; data f` -/
def commands : List Cmd :=
  [.beginRecord [97], .data false none [[100]], .beginElement [98], .data false none [[101]],
    .data false none [[102]]]

end Zebra.Regx.Building
