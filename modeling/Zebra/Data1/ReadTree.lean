import Zebra.Lib.Fuel
import Zebra.Lib.SelfDelimiting
import Zebra.Data1.ReadSafe

/-!
# The tree of tagged text

Where the elements of the input are closed one within another, a node for each element, text and
comment is below the node of the innermost element that is open where it stands.
-/

namespace Zebra.ReadNodex

open List
open Nat (exists_eq_succ_of_ne_zero)

inductive Attributes : List Byte → List Xattr → Prop
  | nil : Attributes [] []
  | space {c : Byte} {s : List Byte} {xattr : List Xattr} : isSpace c = true → Attributes s xattr →
      Attributes (c :: s) xattr
  | bare {name s : List Byte} {xattr : List Xattr} : name ≠ [] → (∀ c ∈ name, nameChar c = true) →
      (s = [] ∨ isSpace (cur s) = true) → Attributes s xattr →
      Attributes (name ++ s) (⟨name, none⟩ :: xattr)
  | quoted {name value s : List Byte} {quote : Byte} {xattr : List Xattr} :
      (∀ c ∈ name, nameChar c = true) → (quote = 34 ∨ quote = 39) →
      (∀ c ∈ value, quotedChar quote c = true) → Attributes s xattr →
      Attributes (name ++ 61 :: quote :: (value ++ quote :: s)) (⟨name, some value⟩ :: xattr)
  | plain {name value : List Byte} : (∀ c ∈ name, nameChar c = true) →
      ¬ (cur value = 34 ∨ cur value = 39) → (∀ c ∈ value, plainChar c = true) →
      Attributes (name ++ 61 :: value) [⟨name, some value⟩]

def tagEnd (nullTag : Bool) (rest : List Byte) : List Byte :=
  if nullTag then 47 :: 62 :: rest else 62 :: rest

variable {attrs name : List Byte} {xattr : List Xattr}

theorem cur_cons (c : Byte) (s : List Byte) : cur (c :: s) = c := rfl

variable {d : Byte}

theorem nameChar_stop (ends : d = 62 ∨ d = 47) : nameChar d = false := by
  rcases ends with rfl | rfl
  · rfl
  · rfl

theorem nameChar_space (space : isSpace d = true) : nameChar d = false := by
  rw [nameChar, tagChar, space]
  simp

/-- Where a name begins, no blanks are skipped and no end is seen. -/
theorem name_begins {c : Byte} (first : nameChar c = true ∨ c = 61) (s : List Byte) :
    (c :: s).dropWhile isSpace = c :: s ∧ ¬ (c = 0 ∨ c = 62 ∨ c = 47) := by
  rcases first with first | rfl
  · simp only [nameChar, tagChar, Bool.and_eq_true, bne_iff_ne, Bool.not_eq_true'] at first
    obtain ⟨⟨⟨⟨zero, more⟩, slash⟩, space⟩, -⟩ := first
    refine ⟨dropWhile_cons_of_neg (by rw [space]; exact Bool.false_ne_true), ?_⟩
    rintro (same | same | same)
    · exact zero same
    · exact more same
    · exact slash same
  · exact ⟨rfl, by decide⟩

theorem readXattr_space {c : Byte} (space : isSpace c = true) (fuel : Nat) (s : List Byte) :
    readXattr fuel (c :: s) = readXattr fuel s := by
  cases fuel with
  | zero => rfl
  | succ fuel => rw [readXattr, readXattr, dropWhile_cons_of_pos space]

theorem readXattr_end (ends : d = 62 ∨ d = 47) (fuel : Nat) (rest : List Byte) :
    readXattr (fuel + 1) (d :: rest) = .ok ([], d :: rest) := by
  rcases ends with rfl | rfl
  · rfl
  · rfl

theorem readXattr_name (inside : ∀ c ∈ name, nameChar c = true)
    (stop : nameChar d = false) (first : name ≠ [] ∨ d = 61) (fuel : Nat) (s : List Byte) :
    readXattr (fuel + 1) (name ++ d :: s) =
      if d = 61 then (readXattr fuel (readValue s).2).bind fun more =>
        .ok (⟨name, some (readValue s).1⟩ :: more.1, more.2)
      else (readXattr fuel (d :: s)).bind fun more => .ok (⟨name, none⟩ :: more.1, more.2) := by
  obtain ⟨taken, dropped⟩ := takeWhile_append_stop (r := s) inside stop
  have begins : (name ++ d :: s).dropWhile isSpace = name ++ d :: s ∧
      ¬ (cur (name ++ d :: s) = 0 ∨ cur (name ++ d :: s) = 62 ∨ cur (name ++ d :: s) = 47) := by
    cases name with
    | nil => exact name_begins (.inr (first.resolve_left fun some => some rfl)) s
    | cons c name => exact name_begins (.inl (inside c mem_cons_self)) (name ++ d :: s)
  rw [readXattr]
  dsimp only
  rw [begins.1, if_neg begins.2, taken, dropped]
  rfl

theorem readValue_quoted {quote : Byte} {value : List Byte} (isQuote : quote = 34 ∨ quote = 39)
    (inside : ∀ c ∈ value, quotedChar quote c = true) (s : List Byte) :
    readValue (quote :: (value ++ quote :: s)) = (value, s) := by
  have stop : quotedChar quote quote = false := by simp [quotedChar]
  have set : quote ≠ 0 := by
    rcases isQuote with rfl | rfl
    · decide
    · decide
  obtain ⟨taken, dropped⟩ := takeWhile_append_stop (r := s) inside stop
  have quoted : cur (quote :: (value ++ quote :: s)) = 34 ∨
      cur (quote :: (value ++ quote :: s)) = 39 := isQuote
  rw [readValue, if_pos quoted]
  dsimp only
  rw [cur_cons, tail_cons, taken, dropped, cur_cons, if_neg set, tail_cons]

theorem readValue_plain {value : List Byte} (noQuote : ¬ (cur value = 34 ∨ cur value = 39))
    (inside : ∀ c ∈ value, plainChar c = true) (ends : d = 62 ∨ d = 47)
    (rest : List Byte) : readValue (value ++ d :: rest) = (value, d :: rest) := by
  have stop : plainChar d = false := by
    rcases ends with rfl | rfl
    · rfl
    · rfl
  obtain ⟨taken, dropped⟩ := takeWhile_append_stop (r := rest) inside stop
  have other : ¬ (cur (value ++ d :: rest) = 34 ∨ cur (value ++ d :: rest) = 39) := by
    cases value with
    | nil =>
      rcases ends with rfl | rfl
      · exact show ¬ (62 = 34 ∨ 62 = 39) by decide
      · exact show ¬ (47 = 34 ∨ 47 = 39) by decide
    | cons c value => exact noQuote
  rw [readValue, if_neg other, taken, dropped]

theorem readXattr_written (written : Attributes attrs xattr) (ends : d = 62 ∨ d = 47)
    (rest : List Byte) (fuel : Nat) (enough : attrs.length < fuel) :
    readXattr fuel (attrs ++ d :: rest) = .ok (xattr, d :: rest) := by
  induction written generalizing fuel with
  | nil =>
    cases fuel with
    | zero => exact absurd enough (Nat.not_lt_zero _)
    | succ fuel => exact readXattr_end ends fuel rest
  | @space c s xattr space _ ih =>
    rw [cons_append, readXattr_space space]
    exact ih fuel (Nat.lt_of_succ_lt enough)
  | @bare name s xattr some inside next _ ih =>
    cases fuel with
    | zero => exact absurd enough (Nat.not_lt_zero _)
    | succ fuel =>
      have pos := length_pos_iff.mpr some
      rw [length_append] at enough
      have read := ih fuel (by omega)
      have stops : ∃ c t, s ++ d :: rest = c :: t ∧ nameChar c = false ∧ c ≠ 61 := by
        cases s with
        | nil =>
          refine ⟨d, rest, rfl, nameChar_stop ends, ?_⟩
          rcases ends with rfl | rfl
          · decide
          · decide
        | cons c s =>
          have space : isSpace c = true := next.resolve_left (cons_ne_nil c s)
          refine ⟨c, s ++ d :: rest, rfl, nameChar_space space, ?_⟩
          rintro rfl
          exact Bool.false_ne_true space
      obtain ⟨c, t, same, stop, noEquals⟩ := stops
      rw [append_assoc, same, readXattr_name inside stop (.inl some), if_neg noEquals, ← same,
        read]
      rfl
  | @quoted name value s quote xattr inside isQuote closed _ ih =>
    cases fuel with
    | zero => exact absurd enough (Nat.not_lt_zero _)
    | succ fuel =>
      simp only [length_append, length_cons] at enough
      have read := ih fuel (by omega)
      simp only [append_assoc, cons_append]
      rw [readXattr_name inside rfl (.inr rfl), if_pos rfl, readValue_quoted isQuote closed, read]
      rfl
  | @plain name value inside noQuote chars =>
    cases fuel with
    | zero => exact absurd enough (Nat.not_lt_zero _)
    | succ fuel =>
      simp only [length_append, length_cons] at enough
      obtain ⟨more, rfl⟩ := exists_eq_succ_of_ne_zero (n := fuel) (by omega)
      rw [append_assoc, cons_append, readXattr_name inside rfl (.inr rfl), if_pos rfl,
        readValue_plain noQuote chars ends, readXattr_end ends]
      rfl

theorem readTag_written (endTag nullTag : Bool) (inside : ∀ c ∈ name, tagChar c = true)
    (written : Attributes attrs xattr) (apart : attrs = [] ∨ isSpace (cur attrs) = true)
    (rest : List Byte) :
    readTag endTag (name ++ (attrs ++ tagEnd nullTag rest)) =
      .ok (.tag endTag (name.take 255) xattr nullTag rest) := by
  obtain ⟨d, last, ends, shape⟩ :
      ∃ d last, (d = 62 ∨ d = 47) ∧ tagEnd nullTag rest = d :: last := by
    cases nullTag with
    | true => exact ⟨47, 62 :: rest, .inr rfl, rfl⟩
    | false => exact ⟨62, rest, .inl rfl, rfl⟩
  have stops : ∃ c t, attrs ++ tagEnd nullTag rest = c :: t ∧ tagChar c = false := by
    cases attrs with
    | nil =>
      refine ⟨d, last, shape, ?_⟩
      rcases ends with rfl | rfl
      · rfl
      · rfl
    | cons c attrs =>
      have space : isSpace c = true := apart.resolve_left (cons_ne_nil c attrs)
      refine ⟨c, attrs ++ tagEnd nullTag rest, rfl, ?_⟩
      rw [tagChar, space]
      simp
  obtain ⟨c, t, same, stop⟩ := stops
  obtain ⟨taken, dropped⟩ := takeWhile_append_stop (r := t) inside stop
  have read := readXattr_written written ends last
    ((name ++ (attrs ++ tagEnd nullTag rest)).length + 1)
    (by simp only [length_append]; omega)
  rw [readTag, same, taken, dropped, ← same, shape]
  rw [shape] at read
  rw [read]
  simp only [Except.bind]
  cases nullTag with
  | true =>
    obtain ⟨rfl, rfl⟩ := List.cons.inj shape
    rfl
  | false =>
    obtain ⟨rfl, rfl⟩ := List.cons.inj shape
    rfl

/-- A start tag: its name, and its attributes as they are written -/
structure StartTag (name attrs : List Byte) (xattr : List Xattr) : Prop where
  some : name ≠ []
  inside : ∀ c ∈ name, tagChar c = true
  element : ¬ (cur name = 63 ∨ cur name = 33)
  written : Attributes attrs xattr
  apart : attrs = [] ∨ isSpace (cur attrs) = true

theorem StartTag.read (tag : StartTag name attrs xattr) (nullTag : Bool) (rest : List Byte) :
    readMarkup (name ++ (attrs ++ tagEnd nullTag rest)) =
      .ok (.tag false (name.take 255) xattr nullTag rest) := by
  have read := readTag_written false nullTag tag.inside tag.written tag.apart rest
  obtain ⟨some, inside, element, -, -⟩ := tag
  cases name with
  | nil => exact absurd rfl some
  | cons c name =>
    have noSlash : ¬ c = 47 := by
      rintro rfl
      exact Bool.false_ne_true (inside 47 mem_cons_self)
    rw [cur_cons] at element
    rw [readMarkup, cons_append, cur_cons, if_neg noSlash, if_neg (fun same => element (.inl same)),
      if_neg (fun same => element (.inr same))]
    exact read

/-- An end tag, which may be without a name -/
structure EndTag (name blanks : List Byte) : Prop where
  inside : ∀ c ∈ name, tagChar c = true
  written : Attributes blanks []
  apart : blanks = [] ∨ isSpace (cur blanks) = true

theorem EndTag.read {blanks : List Byte} (tag : EndTag name blanks) (rest : List Byte) :
    readMarkup (47 :: (name ++ (blanks ++ 62 :: rest))) =
      .ok (.tag true (name.take 255) [] false rest) :=
  readTag_written true false tag.inside tag.written tag.apart rest

/-- The text of what is in open elements, of which the innermost comes first, each with the number
of its node; `next` is the number of the next node.  The elements are closed in front of `after`,
and the nodes are those of the elements, texts and comments. -/
inductive Inside : List (List Byte × Nat) → Nat → List Byte → List Node → List Byte → Prop
  | element {name attrs own s after : List Byte} {xattr : List Xattr} {id next : Nat}
      {outer : List (List Byte × Nat)} {nodes : List Node} :
      StartTag name attrs xattr → outer.length + 2 < 250 →
      Inside ((name, next) :: (own, id) :: outer) (next + 1) s nodes after →
      Inside ((own, id) :: outer) next (60 :: (name ++ (attrs ++ tagEnd false s)))
        (⟨.tag (name.take 255) xattr, some id, 0⟩ :: nodes) after
  | empty {name attrs own s after : List Byte} {xattr : List Xattr} {id next : Nat}
      {outer : List (List Byte × Nat)} {nodes : List Node} :
      StartTag name attrs xattr → Inside ((own, id) :: outer) (next + 1) s nodes after →
      Inside ((own, id) :: outer) next (60 :: (name ++ (attrs ++ tagEnd true s)))
        (⟨.tag (name.take 255) xattr, some id, 0⟩ :: nodes) after
  | text {own text s after : List Byte} {id next : Nat} {outer : List (List Byte × Nat)}
      {nodes : List Node} : text ≠ [] → (∀ c ∈ text, textChar c = true) → cur s = 60 →
      Inside ((own, id) :: outer) (next + 1) s nodes after →
      Inside ((own, id) :: outer) next (text ++ s) (⟨.data text, some id, 0⟩ :: nodes) after
  | comment {own text s rest after : List Byte} {id next : Nat} {outer : List (List Byte × Nat)}
      {nodes : List Node} : readComment 0 [] s = (some text, rest) →
      Inside ((own, id) :: outer) (next + 1) rest nodes after →
      Inside ((own, id) :: outer) next (60 :: 33 :: 45 :: 45 :: s)
        (⟨.comment text, some id, 0⟩ :: nodes) after
  | instruction {own s after : List Byte} {id next : Nat} {outer : List (List Byte × Nat)}
      {nodes : List Node} : Inside ((own, id) :: outer) next (skipInstruction 0 s) nodes after →
      Inside ((own, id) :: outer) next (60 :: 63 :: s) nodes after
  | directive {own s after : List Byte} {c : Byte} {id next : Nat}
      {outer : List (List Byte × Nat)} {nodes : List Node} : c ≠ 0 → ¬ (c = 45 ∧ cur s = 45) →
      Inside ((own, id) :: outer) next (skipDirective 0 s) nodes after →
      Inside ((own, id) :: outer) next (60 :: 33 :: c :: s) nodes after
  | close {name blanks own own' s after : List Byte} {id id' next : Nat}
      {outer : List (List Byte × Nat)} {nodes : List Node} : EndTag name blanks →
      (name = [] ∨ name = own) → Inside ((own', id') :: outer) next s nodes after →
      Inside ((own, id) :: (own', id') :: outer) next (60 :: 47 :: (name ++ (blanks ++ 62 :: s)))
        nodes after
  | last {name blanks own after : List Byte} {id next : Nat} : EndTag name blanks →
      (name = [] ∨ name = own) →
      Inside [(own, id)] next (60 :: 47 :: (name ++ (blanks ++ 62 :: after))) [] after

/-- What stands outside of all elements: text that is skipped, comments and directives -/
inductive Prolog : List Byte → List Byte → Prop
  | start {s : List Byte} : Prolog s s
  | text {c : Byte} {s rest : List Byte} : textChar c = true → Prolog s rest → Prolog (c :: s) rest
  | comment {text s s' rest : List Byte} : readComment 0 [] s = (some text, s') → Prolog s' rest →
      Prolog (60 :: 33 :: 45 :: 45 :: s) rest
  | instruction {s rest : List Byte} : Prolog (skipInstruction 0 s) rest →
      Prolog (60 :: 63 :: s) rest
  | directive {c : Byte} {s rest : List Byte} : c ≠ 0 → ¬ (c = 45 ∧ cur s = 45) →
      Prolog (skipDirective 0 s) rest → Prolog (60 :: 33 :: c :: s) rest

def outermost (name : List Byte) (xattr : List Xattr) (nodes : List Node) : List Node :=
  ⟨.root (name.take 255), none, 0⟩ :: ⟨.tag (name.take 255) xattr, some 0, 0⟩ :: nodes

/-- An input with an element in which all is well nested, and the nodes of its tree; whether the
element is written as an empty tag. -/
inductive WellNested : Bool → List Byte → List Node → Prop
  | full {name attrs s s' after : List Byte} {xattr : List Xattr} {nodes : List Node} :
      StartTag name attrs xattr → Inside [(name, 1)] 2 s nodes after → Prolog after [] →
      Prolog s' (60 :: (name ++ (attrs ++ tagEnd false s))) →
      WellNested false s' (outermost name xattr nodes)
  | empty {name attrs s' after : List Byte} {xattr : List Xattr} : StartTag name attrs xattr →
      Prolog after [] → Prolog s' (60 :: (name ++ (attrs ++ tagEnd true after))) →
      WellNested true s' (outermost name xattr [])

def Plain (nodes : List Node) : Prop :=
  ∀ n ∈ nodes, ∀ tag xattr, n.content = .tag tag xattr → varTriple tag xattr = none

/-- The open elements are on the stack above the root. -/
def OnStack (st : State) : List (List Byte × Nat) → Prop
  | [] => st.stack 0 = .node 0 ∧ ∃ n, st.nodes[0]? = some n ∧ n.root = 0
  | (own, id) :: outer =>
    (st.stack (outer.length + 1) = .node id ∧ ∃ n attributes, st.nodes[id]? = some n ∧
      n.content = .tag (own.take 255) attributes ∧ n.root = 0) ∧ OnStack st outer

/-- The state of the loop where these elements are open -/
structure Holds (st : State) (next : Nat) (opened : List (List Byte × Nat)) : Prop where
  level : st.level = opened.length + 1
  next : st.nodes.length = next
  few : opened.length < 250
  on : OnStack st opened

variable {st : State} {opened outer : List (List Byte × Nat)} {own : List Byte} {id next : Nat}

variable {st' : State}

/-- Nodes that are added and entries above the open elements change nothing of them. -/
theorem OnStack.later (on : OnStack st opened) {more : List Node}
    (nodes : st'.nodes = st.nodes ++ more)
    (stack : ∀ i ≤ opened.length, st'.stack i = st.stack i) : OnStack st' opened := by
  have kept {k : Nat} {n : Node} (at' : st.nodes[k]? = some n) : st'.nodes[k]? = some n := by
    rw [nodes, List.getElem?_append_left (List.getElem?_eq_some_iff.mp at').1]
    exact at'
  induction opened with
  | nil =>
    obtain ⟨base, n, at', own⟩ := on
    exact ⟨(stack 0 le_rfl).trans base, n, kept at', own⟩
  | cons inner outer ih =>
    obtain ⟨⟨base, n, attributes, at', own⟩, rest⟩ := on
    exact ⟨⟨(stack _ le_rfl).trans base, n, attributes, kept at', own⟩,
      ih rest fun i less => stack i (Nat.le_succ_of_le less)⟩

/-- The parent of what comes next is the innermost element. -/
theorem Holds.parent (holds : Holds st next ((own, id) :: outer)) :
    st.parent = .ok (some id) ∧ ∃ n, st.nodes[id]? = some n ∧ n.root = 0 := by
  obtain ⟨level, -, few, ⟨base, n, attributes, at', -, root⟩, -⟩ := holds
  rw [length_cons] at level few
  refine ⟨?_, n, at', root⟩
  rw [State.parent, if_neg (by omega), level, State.slot, if_pos (by omega), Nat.add_sub_cancel,
    base]

theorem Holds.append (holds : Holds st next ((own, id) :: outer)) (content : Content) :
    (st.append content (some id)).nodes = st.nodes ++ [⟨content, some id, 0⟩] := by
  obtain ⟨-, n, at', root⟩ := holds.parent
  rw [append_last content at', root]

/-- A node is added below the innermost element and stored above it. -/
theorem Holds.add (holds : Holds st next ((own, id) :: outer)) (content : Content) (slot : Slot) :
    ∃ st', (st.append content (some id)).store st.level slot = .ok st' ∧
      st'.nodes = st.nodes ++ [⟨content, some id, 0⟩] ∧
      Holds st' (next + 1) ((own, id) :: outer) := by
  have nodes := holds.append content
  obtain ⟨level, count, few, on⟩ := holds
  refine ⟨_, store_ok (by omega) slot, nodes, level, ?_, few, on.later nodes fun i less => ?_⟩
  · dsimp only
    rw [nodes, length_append, count]
    rfl
  · exact if_neg (by omega)

/-- An element is added below the innermost one, and is open unless its tag is empty. -/
theorem Holds.push (holds : Holds st next ((own, id) :: outer)) (name : List Byte)
    (attributes : List Xattr) (nullTag : Bool) (few : nullTag = false → outer.length + 2 < 250) :
    ∃ st', push (st.append (.tag (name.take 255) attributes) (some id)) nullTag = .ok st' ∧
      st'.nodes = st.nodes ++ [⟨.tag (name.take 255) attributes, some id, 0⟩] ∧
      Holds st' (next + 1)
        (if nullTag then (own, id) :: outer else (name, next) :: (own, id) :: outer) := by
  have nodes := holds.append (.tag (name.take 255) attributes)
  obtain ⟨level, count, small, on⟩ := holds
  have total : (st.append (.tag (name.take 255) attributes) (some id)).nodes.length = next + 1 := by
    rw [nodes, length_append, count]
    rfl
  have above : (st.append (.tag (name.take 255) attributes) (some id)).level = st.level := rfl
  rw [length_cons] at level small
  rw [ReadNodex.push, total, above, Nat.add_sub_cancel, store_ok (by omega)]
  simp only [Except.bind]
  rw [store_ok (show st.level + 1 < 256 by omega)]
  refine ⟨_, rfl, ?_⟩
  have kept (i : Nat) (less : i ≤ ((own, id) :: outer).length) :
      (if i = st.level + 1 then Slot.null else if i = st.level then Slot.node next else
        (st.append (.tag (name.take 255) attributes) (some id)).stack i) = st.stack i := by
    rw [length_cons] at less
    rw [if_neg (by omega), if_neg (by omega)]
    rfl
  cases nullTag with
  | true =>
    rw [if_neg (by simp), if_pos rfl]
    exact ⟨nodes, level, total, small, on.later nodes kept⟩
  | false =>
    have few := few rfl
    rw [if_pos ⟨by omega, rfl⟩, if_neg Bool.false_ne_true]
    refine ⟨nodes, ?_, total, few, ⟨?_, ⟨.tag (name.take 255) attributes, some id, 0⟩,
      attributes, ?_,
      rfl, rfl⟩, on.later nodes kept⟩
    · dsimp only
      rw [length_cons, length_cons, level]
    · dsimp only
      rw [length_cons, if_neg (by omega), if_pos (by omega)]
    · dsimp only
      rw [nodes, ← count]
      exact List.getElem?_concat_length

/-- The innermost element is closed by its name or by no name. -/
theorem Holds.endLevel (holds : Holds st next ((own, id) :: outer)) {name : List Byte}
    (same : name = [] ∨ name = own) :
    endLevel st (name.take 255) = .ok (some (outer.length + 1)) := by
  obtain ⟨level, -, few, ⟨base, n, attributes, at', content, -⟩, -⟩ := holds
  rw [length_cons] at level few
  rw [ReadNodex.endLevel]
  by_cases anonymous : name.take 255 = []
  · rw [if_pos anonymous, level]
    rfl
  · rw [if_neg anonymous]
    obtain rfl : name = own := same.resolve_left fun none => anonymous (by rw [none]; rfl)
    rw [level, findOpen, State.nodeAt, State.slot, if_pos (by omega), base]
    simp only [Except.bind]
    rw [node_of_get at']
    simp only
    rw [if_pos (by rw [content]; exact decide_eq_true rfl)]

theorem Holds.close (holds : Holds st next ((own, id) :: outer)) :
    Holds { st with level := outer.length + 1 } next outer := by
  obtain ⟨-, count, few, -, on⟩ := holds
  exact ⟨rfl, count, Nat.lt_of_succ_lt few, on.later (append_nil _).symm fun _ _ => rfl⟩

theorem OnStack.base (on : OnStack st opened) : st.stack 0 = .node 0 := by
  induction opened with
  | nil => exact on.1
  | cons inner outer ih => exact ih on.2

variable {getAbsyn : List Byte → Option Absyn} {parent : Option Nat}

theorem round_markup (read : st.parent = .ok parent) {s : List Byte} {markup : Markup}
    (found : readMarkup s = .ok markup) :
    round getAbsyn st (60 :: s) = markupRound getAbsyn st parent markup := by
  rw [round, cur_cons, if_neg (by decide), read]
  simp only [Except.bind]
  rw [if_pos trivial, tail_cons, found]

variable {s rest : List Byte}

theorem rounds_next {s' : List Byte}
    (more : round getAbsyn st s = .ok (.next st' s')) (fuel : Nat) :
    rounds getAbsyn (fuel + 1) st s = rounds getAbsyn fuel st' s' := by
  rw [rounds, more]
  rfl

theorem rounds_returns {res : Option Nat} {nodes : List Node}
    (last : round getAbsyn st s = .ok (.returns res nodes)) (fuel : Nat) :
    rounds getAbsyn (fuel + 1) st s = .ok (res, nodes) := by
  rw [rounds, last]
  rfl

theorem textRound_taken {text : List Byte} (some : text ≠ [])
    (inside : ∀ c ∈ text, textChar c = true) (next' : cur s = 60) :
    cur (text ++ s) ≠ 0 ∧ cur (text ++ s) ≠ 60 ∧ (text ++ s).takeWhile textChar = text ∧
      (text ++ s).dropWhile textChar = s := by
  obtain ⟨c, t, rfl⟩ : ∃ c t, s = c :: t := by
    cases s with
    | nil => exact absurd next' (by decide)
    | cons c t => exact ⟨c, t, rfl⟩
  obtain rfl : c = 60 := next'
  cases text with
  | nil => exact absurd rfl some
  | cons d text =>
    have first := inside d mem_cons_self
    simp only [textChar, Bool.and_eq_true, bne_iff_ne] at first
    exact ⟨first.1, first.2, takeWhile_append_stop inside rfl⟩

/-- Where no element is taken for a variant, its node is added and put on the stack. -/
theorem Holds.startRound (holds : Holds st next ((own, id) :: outer)) {name : List Byte}
    {xattr : List Xattr} (noVar : varTriple (name.take 255) xattr = none) (nullTag : Bool)
    (few : nullTag = false → outer.length + 2 < 250) (rest : List Byte) :
    ∃ st', startRound getAbsyn st (some id) (name.take 255) xattr nullTag rest = .ok
      (.next st' rest) ∧
      st'.nodes = st.nodes ++ [⟨.tag (name.take 255) xattr, some id, 0⟩] ∧
      Holds st' (next + 1)
        (if nullTag then (own, id) :: outer else (name, next) :: (own, id) :: outer) := by
  obtain ⟨st', pushed, nodes, holds'⟩ := holds.push name xattr nullTag few
  have level := holds.level
  refine ⟨st', ?_, nodes, holds'⟩
  rw [ReadNodex.startRound, noVar]
  dsimp only
  rw [startElement, if_neg (by omega)]
  simp only [Except.bind]
  rw [pushed]

theorem readMarkup_comment {text : List Byte} (found : readComment 0 [] s = (some text, rest)) :
    readMarkup (33 :: 45 :: 45 :: s) = .ok (.comment text rest) := by
  rw [readMarkup, cur_cons, if_neg (by decide), if_neg (by decide), if_pos rfl]
  simp only [tail_cons, cur_cons]
  rw [if_neg (by decide), if_pos ⟨trivial, trivial⟩, found]

theorem readMarkup_directive {c : Byte} (set : c ≠ 0) (noComment : ¬ (c = 45 ∧ cur s = 45)) :
    readMarkup (33 :: c :: s) = .ok (.skip (skipDirective 0 s)) := by
  rw [readMarkup, cur_cons, if_neg (by decide), if_neg (by decide), if_pos rfl]
  rw [if_neg (show ¬ cur (33 :: c :: s).tail = 0 from set),
    if_neg (show ¬ (cur (33 :: c :: s).tail = 45 ∧
      cur (33 :: c :: s).tail.tail = 45) from noComment)]
  rfl

theorem readMarkup_instruction (s : List Byte) :
    readMarkup (63 :: s) = .ok (.skip (skipInstruction 0 s)) := by
  rw [readMarkup, cur_cons, if_neg (by decide), if_pos rfl]
  rfl

theorem Inside.rounds {s after : List Byte} {nodes : List Node}
    (inside : Inside opened next s nodes after) (holds : Holds st next opened) (plain : Plain nodes)
    (fuel : Nat) (enough : s.length < fuel) :
    rounds getAbsyn fuel st s = .ok (some 0, st.nodes ++ nodes) := by
  induction inside generalizing st fuel with
  | @element name attrs own s after xattr id next outer nodes tag few _ ih =>
    obtain ⟨fuel, rfl⟩ := exists_eq_succ_of_ne_zero (Nat.ne_zero_of_lt enough)
    simp only [length_append, length_cons, tagEnd] at enough
    obtain ⟨st', same, nodes', holds'⟩ := @Holds.startRound st outer own id next getAbsyn holds
      name xattr (plain _ mem_cons_self _ _ rfl) false (fun _ => few) s
    rw [rounds_next ((round_markup holds.parent.1 (tag.read false s)).trans same),
      ih holds' (fun n mem => plain n (.tail _ mem)) fuel (by simp at enough; omega),
      nodes', append_assoc]
    rfl
  | @empty name attrs own s after xattr id next outer nodes tag _ ih =>
    obtain ⟨fuel, rfl⟩ := exists_eq_succ_of_ne_zero (Nat.ne_zero_of_lt enough)
    simp only [length_append, length_cons, tagEnd] at enough
    obtain ⟨st', same, nodes', holds'⟩ := @Holds.startRound st outer own id next getAbsyn holds
      name xattr (plain _ mem_cons_self _ _ rfl) true (fun no => Bool.noConfusion no) s
    rw [rounds_next ((round_markup holds.parent.1 (tag.read true s)).trans same),
      ih holds' (fun n mem => plain n (.tail _ mem)) fuel (by simp at enough; omega),
      nodes', append_assoc]
    rfl
  | @text own text s after id next outer nodes some chars follows _ ih =>
    obtain ⟨fuel, rfl⟩ := exists_eq_succ_of_ne_zero (Nat.ne_zero_of_lt enough)
    have pos := length_pos_iff.mpr some
    rw [length_append] at enough
    obtain ⟨more, noTag, taken, dropped⟩ := textRound_taken some chars follows
    obtain ⟨st', stored, nodes', holds'⟩ := holds.add (.data text) (.node st.nodes.length)
    have level := holds.level
    have same : round getAbsyn st (text ++ s) = .ok (.next st' s) := by
      rw [round, if_neg more, holds.parent.1]
      simp only [Except.bind]
      rw [if_neg noTag, textRound, if_neg (by omega), taken, dropped, stored]
      rfl
    rw [rounds_next same,
      ih holds' (fun n mem => plain n (.tail _ mem)) fuel (by omega),
      nodes', append_assoc]
    rfl
  | @comment own text s rest after id next outer nodes found _ ih =>
    obtain ⟨fuel, rfl⟩ := exists_eq_succ_of_ne_zero (Nat.ne_zero_of_lt enough)
    have less := readComment_length_le 0 [] s
    rw [found] at less
    simp only [length_cons] at enough less
    obtain ⟨st', stored, nodes', holds'⟩ := holds.add (.comment text) (.node st.nodes.length)
    have level := holds.level
    have same : commentRound st text rest = .ok (.next st' rest) := by
      have parent := holds.parent.1
      rw [State.parent, if_neg (by omega)] at parent
      rw [commentRound, if_neg (by omega), parent]
      simp only [Except.bind]
      rw [stored]
    rw [rounds_next ((round_markup holds.parent.1 (readMarkup_comment found)).trans same),
      ih holds' (fun n mem => plain n (.tail _ mem)) fuel (by omega),
      nodes', append_assoc]
    rfl
  | @instruction own s after id next outer nodes _ ih =>
    obtain ⟨fuel, rfl⟩ := exists_eq_succ_of_ne_zero (Nat.ne_zero_of_lt enough)
    have less := skipInstruction_length_le 0 s
    simp only [length_cons] at enough
    rw [rounds_next (round_markup holds.parent.1 (readMarkup_instruction s)),
      ih holds plain fuel (by omega)]
  | @directive own s after c id next outer nodes set noComment _ ih =>
    obtain ⟨fuel, rfl⟩ := exists_eq_succ_of_ne_zero (Nat.ne_zero_of_lt enough)
    have less := skipDirective_length_le 0 s
    simp only [length_cons] at enough
    rw [rounds_next (round_markup holds.parent.1 (readMarkup_directive set noComment)),
      ih holds plain fuel (by omega)]
  | @close name blanks own own' s after id id' next outer nodes tag same _ ih =>
    obtain ⟨fuel, rfl⟩ := exists_eq_succ_of_ne_zero (Nat.ne_zero_of_lt enough)
    simp only [length_append, length_cons] at enough
    have closes : endRound st (name.take 255) s =
        .ok (.next { st with level := outer.length + 1 + 1 } s) := by
      rw [endRound, holds.endLevel same]
      simp only [Except.bind]
      rw [length_cons, if_neg (by omega)]
    rw [rounds_next ((round_markup holds.parent.1 (tag.read s)).trans closes)]
    exact ih holds.close plain fuel (by omega)
  | @last name blanks own after id next tag same =>
    obtain ⟨fuel, rfl⟩ := exists_eq_succ_of_ne_zero (Nat.ne_zero_of_lt enough)
    have closes : endRound st (name.take 255) after = .ok (.returns (some 0) st.nodes) := by
      rw [endRound, holds.endLevel same]
      simp only [Except.bind]
      rw [length_nil, if_pos (by decide), State.slot, if_pos (by decide), holds.on.base]
    rw [rounds_returns ((round_markup holds.parent.1 (tag.read after)).trans closes),
      append_nil]

/-- What stands in front of the outermost element is skipped. -/
theorem Prolog.rounds {s rest : List Byte} (prolog : Prolog s rest) (fuel : Nat)
    (enough : s.length < fuel) :
    ∃ fuel', rest.length < fuel' ∧
      rounds getAbsyn fuel .start s = rounds getAbsyn fuel' .start rest := by
  have none' : State.start.parent = .ok none := rfl
  induction prolog generalizing fuel with
  | start => exact ⟨fuel, enough, rfl⟩
  | @text c s rest text _ ih =>
    obtain ⟨fuel, rfl⟩ := exists_eq_succ_of_ne_zero (Nat.ne_zero_of_lt enough)
    obtain ⟨fuel', enough', same⟩ := ih fuel (Nat.lt_of_succ_lt_succ enough)
    simp only [textChar, Bool.and_eq_true, bne_iff_ne] at text
    have next : round getAbsyn .start (c :: s) = .ok (.next .start s) := by
      rw [round, cur_cons, if_neg text.1, none']
      simp only [Except.bind]
      rw [if_neg text.2]
      rfl
    exact ⟨fuel', enough', (rounds_next next fuel).trans same⟩
  | @comment text s s' rest found _ ih =>
    obtain ⟨fuel, rfl⟩ := exists_eq_succ_of_ne_zero (Nat.ne_zero_of_lt enough)
    have less := readComment_length_le 0 [] s
    rw [found] at less
    simp only [length_cons] at enough less
    obtain ⟨fuel', enough', same⟩ := ih fuel (by omega)
    exact ⟨fuel', enough',
      (rounds_next (round_markup none' (readMarkup_comment found)) fuel).trans same⟩
  | @instruction s rest _ ih =>
    obtain ⟨fuel, rfl⟩ := exists_eq_succ_of_ne_zero (Nat.ne_zero_of_lt enough)
    have less := skipInstruction_length_le 0 s
    simp only [length_cons] at enough
    obtain ⟨fuel', enough', same⟩ := ih fuel (by omega)
    exact ⟨fuel', enough',
      (rounds_next (round_markup none' (readMarkup_instruction s)) fuel).trans same⟩
  | @directive c s rest set noComment _ ih =>
    obtain ⟨fuel, rfl⟩ := exists_eq_succ_of_ne_zero (Nat.ne_zero_of_lt enough)
    have less := skipDirective_length_le 0 s
    simp only [length_cons] at enough
    obtain ⟨fuel', enough', same⟩ := ih fuel (by omega)
    exact ⟨fuel', enough',
      (rounds_next (round_markup none' (readMarkup_directive set noComment)) fuel).trans same⟩

/-- The state behind the tag of the outermost element -/
def outermostState (name : List Byte) (xattr : List Xattr) (nullTag : Bool) : State where
  nodes := outermost name xattr []
  stack i := if i = 2 then .null else if i = 1 then .node 1 else if i = 0 then .node 0 else .unset
  level := if nullTag then 1 else 2

theorem startRound_outermost (noVar : varTriple (name.take 255) xattr = none) (nullTag : Bool)
    (rest : List Byte) :
    startRound getAbsyn .start none (name.take 255) xattr nullTag rest =
      .ok (.next (outermostState name xattr nullTag) rest) := by
  have stack : (fun i : Nat => if i = 2 then Slot.null else if i = 1 then .node 1 else
      if i = 0 then .node 0 else if i = 0 then .null else .unset) =
      (outermostState name xattr nullTag).stack := by
    funext i
    by_cases zero : i = 0
    · rw [zero]
      rfl
    · rw [if_neg zero, if_neg zero, outermostState]
      simp only [if_neg zero]
  rw [startRound, noVar]
  cases nullTag with
  | true =>
    exact congrArg (fun stack => Except.ok (Round.next ⟨outermost name xattr [], stack,
      1⟩ rest)) stack
  | false =>
    exact congrArg (fun stack => Except.ok (Round.next ⟨outermost name xattr [], stack,
      2⟩ rest)) stack

/-- A well nested input whose outermost element is not written as an empty tag is read to its
tree. -/
theorem rounds_full {s' after : List Byte} {nodes : List Node} (tag : StartTag name attrs xattr)
    (inside : Inside [(name, 1)] 2 s nodes after)
    (prolog : Prolog s' (60 :: (name ++ (attrs ++ tagEnd false s))))
    (plain : Plain (outermost name xattr nodes)) :
    data1ReadNodex getAbsyn s' = .ok (some 0, outermost name xattr nodes) := by
  obtain ⟨fuel, enough, same⟩ :=
    @Prolog.rounds getAbsyn s' _ prolog (s'.length + 1) (Nat.lt_succ_self _)
  obtain ⟨fuel, rfl⟩ := exists_eq_succ_of_ne_zero (Nat.ne_zero_of_lt enough)
  simp [tagEnd] at enough
  have noVar := plain ⟨.tag (name.take 255) xattr, some 0, 0⟩
    (.tail _ mem_cons_self) _ _ rfl
  have first := (@round_markup _ getAbsyn _ (show State.start.parent = .ok none from rfl) _ _
    (tag.read false s)).trans (startRound_outermost noVar false s)
  have holds : Holds (outermostState name xattr false) 2 [(name, 1)] :=
    ⟨rfl, rfl, show 1 < 250 by decide,
      ⟨rfl, ⟨.tag (name.take 255) xattr, some 0, 0⟩, xattr, rfl, rfl, rfl⟩, rfl,
      ⟨.root (name.take 255), none, 0⟩, rfl, rfl⟩
  rw [data1ReadNodex, same, rounds_next first]
  exact inside.rounds holds
    (fun n mem => plain n (.tail _ (.tail _ mem))) fuel (by omega)

theorem Prolog.dropText (prolog : Prolog s rest) (end' : rest = []) :
    Prolog (s.dropWhile textChar) rest := by
  induction prolog with
  | start =>
    rw [end']
    exact .start
  | text char _ ih =>
    rw [dropWhile_cons_of_pos char]
    exact ih end'
  | comment found rest' => exact .comment found rest'
  | instruction rest' => exact .instruction rest'
  | directive set noComment rest' => exact .directive set noComment rest'

/-- Below the root that an empty tag leaves, what stands outside of elements is read to the end. -/
theorem Prolog.rounds_none {s rest : List Byte} (prolog : Prolog s rest) (end' : rest = [])
    {r : Nat} {type : List Byte} (fuel : Nat) (enough : s.length < fuel) (pos : 0 < st.level)
    (open' : Open st r type) :
      ∃ nodes, ReadNodex.rounds getAbsyn fuel st s = .ok (none, nodes) := by
  induction fuel generalizing s st with
  | zero => exact absurd enough (Nat.not_lt_zero _)
  | succ fuel ih =>
    obtain ⟨id, n, read, -⟩ := open'.parent pos
    cases prolog with
    | start =>
      rw [end']
      exact ⟨st.nodes, rfl⟩
    | @text c s _ char rest' =>
      have chars := char
      simp only [textChar, Bool.and_eq_true, bne_iff_ne] at chars
      obtain ⟨st', next, pos', open''⟩ := textRound_next pos open' (some id) (c :: s)
      have same : round getAbsyn st (c :: s) = .ok (.next st' ((c :: s).dropWhile textChar)) := by
        rw [round, cur_cons, if_neg chars.1, read]
        simp only [Except.bind]
        rw [if_neg chars.2, next]
      have less := dropWhile_length_lt (s := c :: s) char chars.1
      obtain ⟨nodes, ended⟩ := ih ((Prolog.text char rest').dropText end') (by omega) pos' open''
      exact ⟨nodes, (rounds_next same fuel).trans ended⟩
    | @comment words s s' _ found rest' =>
      have less := readComment_length_le 0 [] s
      rw [found] at less
      simp only [length_cons] at enough less
      obtain ⟨st', next, pos', open''⟩ := commentRound_next pos open' words s'
      obtain ⟨nodes, ended⟩ := ih rest' (by omega) pos' open''
      exact ⟨nodes, (rounds_next ((round_markup read (readMarkup_comment found)).trans next)
        fuel).trans ended⟩
    | @instruction s _ rest' =>
      have less := skipInstruction_length_le 0 s
      simp only [length_cons] at enough
      obtain ⟨nodes, ended⟩ := ih rest' (by omega) pos open'
      exact ⟨nodes, (rounds_next (round_markup read (readMarkup_instruction s)) fuel).trans ended⟩
    | @directive c s _ set noComment rest' =>
      have less := skipDirective_length_le 0 s
      simp only [length_cons] at enough
      obtain ⟨nodes, ended⟩ := ih rest' (by omega) pos open'
      exact ⟨nodes,
        (rounds_next (round_markup read (readMarkup_directive set noComment)) fuel).trans ended⟩

/-- Nothing is returned where the outermost element is written as an empty tag. -/
theorem rounds_empty {s' after : List Byte} (tag : StartTag name attrs xattr)
    (rest : Prolog after []) (prolog : Prolog s' (60 :: (name ++ (attrs ++ tagEnd true after))))
    (noVar : varTriple (name.take 255) xattr = none) :
    ∃ nodes, data1ReadNodex getAbsyn s' = .ok (none, nodes) := by
  obtain ⟨fuel, enough, same⟩ :=
    @Prolog.rounds getAbsyn s' _ prolog (s'.length + 1) (Nat.lt_succ_self _)
  obtain ⟨fuel, rfl⟩ := exists_eq_succ_of_ne_zero (Nat.ne_zero_of_lt enough)
  simp [tagEnd] at enough
  have first := (@round_markup _ getAbsyn _ (show State.start.parent = .ok none from rfl) _ _
    (tag.read true after)).trans (startRound_outermost noVar true after)
  have opened : Open (outermostState name xattr true) 0 (name.take 255) := by
    refine ⟨show 1 ≤ 250 by decide, rfl, ⟨_, rfl, rfl⟩, fun i less => ?_⟩
    obtain rfl : i = 0 := Nat.lt_one_iff.mp less
    exact ⟨0, _, rfl, rfl, rfl⟩
  obtain ⟨nodes, ended⟩ :=
    @Prolog.rounds_none _ getAbsyn _ _ rest rfl _ _ fuel (by omega) Nat.one_pos opened
  exact ⟨nodes, (same.trans (rounds_next first fuel)).trans ended⟩

theorem Plain.append {content : Content} {parent : Option Nat} (plain : Plain st.nodes)
    (own : ∀ tag xattr, content = .tag tag xattr → varTriple tag xattr = none) :
    Plain (st.append content parent).nodes := by
  intro n mem tag xattr same
  rw [State.append] at mem
  rcases mem_append.mp mem with old | new
  · exact plain n old tag xattr same
  · rw [mem_singleton.mp new] at same
    exact own tag xattr same

theorem store_nodes {i : Nat} {slot : Slot} (stored : st.store i slot = .ok st') :
    st'.nodes = st.nodes := by
  rw [State.store] at stored
  split_ifs at stored
  cases stored
  rfl

theorem push_nodes {nullTag : Bool} (pushed : push st nullTag = .ok st') :
    st'.nodes = st.nodes := by
  rw [push] at pushed
  obtain ⟨st₁, first, pushed⟩ := bind_eq_ok pushed
  obtain ⟨st₂, second, pushed⟩ := bind_eq_ok pushed
  rw [← store_nodes first, ← store_nodes second]
  cases pushed
  split_ifs
  · rfl
  · rfl

theorem startElement_plain (made : startElement st parent name xattr = .ok st')
    (noVar : varTriple name xattr = none) (plain : Plain st.nodes) : Plain st'.nodes := by
  have own : ∀ tag xattr', Content.tag name xattr = .tag tag xattr' →
      varTriple tag xattr' = none := by
    intro tag xattr' same
    cases same
    exact noVar
  rw [startElement] at made
  by_cases zero : st.level = 0
  · rw [if_pos zero] at made
    obtain ⟨st₁, stored, made⟩ := bind_eq_ok made
    cases made
    refine Plain.append ?_ own
    dsimp only
    rw [store_nodes stored]
    exact plain.append fun _ _ same => by cases same
  · rw [if_neg zero] at made
    cases made
    exact plain.append own

theorem startVariant_plain {tclass vartype : List Byte}
    (made : startVariant getAbsyn st parent tclass vartype = .ok (some st'))
    (plain : Plain st.nodes) : Plain st'.nodes := by
  have own (triple : Option (Nat × List Byte)) (tag : List Byte) (xattr : List Xattr)
      (same : Content.variant triple = .tag tag xattr) : varTriple tag xattr = none := by
    cases same
  rw [startVariant] at made
  obtain ⟨varset, -, made⟩ := bind_eq_ok made
  cases found : varset tclass vartype with
  | none =>
    rw [found] at made
    cases made
  | some tp =>
    rw [found] at made
    obtain ⟨n, -, made⟩ := bind_eq_ok made
    cases content : n.content with
    | variant triple =>
      rw [content] at made
      obtain ⟨level, -, made⟩ := bind_eq_ok made
      cases made
      exact Plain.append plain (own _)
    | _ =>
      rw [content] at made
      cases made
      exact plain.append (own _)

def Round.nodes : Round → List Node
  | .returns _ nodes => nodes
  | .next st _ => st.nodes

theorem startRound_plain {nullTag : Bool} {r : Round}
    (done : startRound getAbsyn st parent name xattr nullTag rest = .ok r)
    (plain : Plain st.nodes) : Plain r.nodes := by
  rw [startRound] at done
  cases triple : varTriple name xattr with
  | none =>
    rw [triple] at done
    obtain ⟨st₁, made, done⟩ := bind_eq_ok done
    obtain ⟨st₂, pushed, done⟩ := bind_eq_ok done
    cases done
    rw [Round.nodes, push_nodes pushed]
    exact startElement_plain made triple plain
  | some names =>
    rw [triple] at done
    obtain ⟨found, made, done⟩ := bind_eq_ok done
    cases found with
    | none =>
      cases done
      exact plain
    | some st₁ =>
      obtain ⟨st₂, pushed, done⟩ := bind_eq_ok done
      cases done
      rw [Round.nodes, push_nodes pushed]
      exact startVariant_plain made plain

theorem round_plain {r : Round} (done : round getAbsyn st s = .ok r)
    (plain : Plain st.nodes) : Plain r.nodes := by
  rw [round] at done
  by_cases last : cur s = 0
  · rw [if_pos last] at done
    cases done
    exact plain
  rw [if_neg last] at done
  obtain ⟨parent, -, done⟩ := bind_eq_ok done
  by_cases markup : cur s = 60
  · rw [if_pos markup] at done
    obtain ⟨found, -, done⟩ := bind_eq_ok done
    cases found with
    | stop =>
      cases done
      exact plain
    | skip rest =>
      cases done
      exact plain
    | comment text rest =>
      rw [markupRound, commentRound] at done
      by_cases zero : st.level = 0
      · rw [if_pos zero] at done
        cases done
        exact plain
      · rw [if_neg zero] at done
        obtain ⟨parent, -, done⟩ := bind_eq_ok done
        obtain ⟨st₁, stored, done⟩ := bind_eq_ok done
        cases done
        rw [Round.nodes, store_nodes stored]
        exact plain.append fun _ _ same => by cases same
    | malformed =>
      cases done
      exact plain
    | tag endTag tag xattr nullTag rest =>
      cases endTag with
      | true =>
        rw [markupRound, endRound] at done
        obtain ⟨found, -, done⟩ := bind_eq_ok done
        cases found with
        | none =>
          cases done
          exact plain
        | some level =>
          dsimp only at done
          by_cases low : level ≤ 1
          · rw [if_pos low] at done
            obtain ⟨res, -, done⟩ := bind_eq_ok done
            cases done
            exact plain
          · rw [if_neg low] at done
            cases done
            exact plain
      | false => exact startRound_plain done plain
  · rw [if_neg markup, textRound] at done
    by_cases zero : st.level = 0
    · rw [if_pos zero] at done
      cases done
      exact plain
    · rw [if_neg zero] at done
      obtain ⟨st₁, stored, done⟩ := bind_eq_ok done
      cases done
      rw [Round.nodes, store_nodes stored]
      exact plain.append fun _ _ same => by cases same

/-- No element of the tree is one that is taken for a variant. -/
theorem rounds_plain (fuel : Nat) {res : Option Nat} {nodes : List Node}
    (done : ReadNodex.rounds getAbsyn fuel st s = .ok (res, nodes)) (plain : Plain st.nodes) :
    Plain nodes := by
  induction fuel generalizing st s with
  | zero => cases done
  | succ fuel ih =>
    rw [ReadNodex.rounds] at done
    obtain ⟨r, first, done⟩ := bind_eq_ok done
    have plain' := round_plain first plain
    cases r with
    | returns res' nodes' =>
      cases done
      exact plain'
    | next st' rest => exact ih done plain'

/-- The reader ends with nothing unset or missing used exactly if each variant it comes to is in a
tree with a variant set; and a well nested input is read to its tree exactly if its outermost
element is not written as an empty tag and no element is written as a variant. -/
theorem data1ReadNodex_iff (getAbsyn : List Byte → Option Absyn) (s : List Byte) :
    ((∃ res, data1ReadNodex getAbsyn s = .ok res) ∧ ∀ emptyTag nodes, WellNested emptyTag s nodes →
      data1ReadNodex getAbsyn s = .ok (some 0, nodes)) ↔
    ((∀ st s', Reaches getAbsyn .start s st s' → VarPlaced getAbsyn st s') ∧
      ∀ emptyTag nodes, WellNested emptyTag s nodes → emptyTag = false ∧ Plain nodes) := by
  have safe := @rounds_safe_iff .start getAbsyn (s.length + 1) inv_start s (Nat.lt_succ_self _)
  constructor
  · rintro ⟨ends, tree⟩
    refine ⟨safe.mp ends, fun emptyTag nodes nested => ?_⟩
    have read := tree emptyTag nodes nested
    have plain : Plain nodes := rounds_plain (s.length + 1) read fun n mem => by cases mem
    refine ⟨?_, plain⟩
    cases nested with
    | full => rfl
    | @empty name attrs s' after xattr tag rest prolog =>
      have noVar := plain ⟨.tag (name.take 255) xattr, some 0, 0⟩
        (.tail _ mem_cons_self) _ _ rfl
      obtain ⟨nodes', none'⟩ :=
        @rounds_empty attrs name xattr getAbsyn s after tag rest prolog noVar
      rw [read] at none'
      cases none'
  · rintro ⟨placed, tree⟩
    refine ⟨safe.mpr placed, fun emptyTag nodes nested => ?_⟩
    obtain ⟨full, plain⟩ := tree emptyTag nodes nested
    cases nested with
    | full tag inside rest prolog => exact rounds_full tag inside prolog plain
    | empty => cases full

/-- A variant outside of all elements makes the reader follow a null pointer. -/
theorem not_data1ReadNodex :
    ¬ ∀ (getAbsyn : List Byte → Option Absyn) (s : List Byte),
      (∃ res, data1ReadNodex getAbsyn s = .ok res) ∧ ∀ emptyTag nodes, WellNested emptyTag s nodes →
        data1ReadNodex getAbsyn s = .ok (some 0, nodes) := by
  intro all
  obtain ⟨⟨res, read⟩, -⟩ := all (fun _ => none) [60, 118, 97, 114, 32, 97, 32, 98, 32, 99, 62]
  have null : data1ReadNodex (fun _ => none) [60, 118, 97, 114, 32, 97, 32, 98, 32, 99, 62] =
      .error .null := by rfl
  rw [null] at read
  cases read

end Zebra.ReadNodex
