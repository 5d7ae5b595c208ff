import Zebra.Data1.ReadNodex

/-!
# The stack of the reader of tagged text

A round of the loop goes wrong at one place alone: a `<var class type value>` outside of all nodes,
or in a tree without a variant set.
-/

namespace Zebra.ReadNodex

theorem dropWhile_length_le (p : Byte → Bool) (s : List Byte) : (s.dropWhile p).length ≤ s.length :=
  (List.dropWhile_suffix p).length_le

theorem tail_length_le (s : List Byte) : s.tail.length ≤ s.length :=
  (List.tail_suffix s).length_le

variable {s : List Byte}

theorem tail_length_lt {c : Byte} (first : cur s = c) (set : c ≠ 0) : s.tail.length < s.length := by
  cases s with
  | nil => exact absurd first.symm set
  | cons b s => exact Nat.lt_succ_self _

theorem readValue_length_le (s : List Byte) : (readValue s).2.length ≤ s.length := by
  rw [readValue]
  by_cases quoted : cur s = 34 ∨ cur s = 39
  · rw [if_pos quoted]
    dsimp only
    have inside := dropWhile_length_le (quotedChar (cur s)) s.tail
    have shorter := tail_length_le s
    by_cases last : cur (s.tail.dropWhile (quotedChar (cur s))) = 0
    · rw [if_pos last]
      omega
    · rw [if_neg last]
      have behind := tail_length_le (s.tail.dropWhile (quotedChar (cur s)))
      omega
  · rw [if_neg quoted]
    exact dropWhile_length_le plainChar s

theorem cur_dropWhile (p : Byte → Bool) (s : List Byte) (more : cur (s.dropWhile p) ≠ 0) :
    p (cur (s.dropWhile p)) = false := by
  induction s with
  | nil => exact absurd rfl more
  | cons c s ih =>
    by_cases here : p c = true
    · rw [List.dropWhile_cons_of_pos here] at more ⊢
      exact ih more
    · rw [List.dropWhile_cons_of_neg here]
      exact Bool.eq_false_iff.mpr here

theorem dropWhile_length_lt {p : Byte → Bool} (first : p (cur s) = true)
    (set : cur s ≠ 0) : (s.dropWhile p).length < s.length := by
  cases s with
  | nil => exact absurd rfl set
  | cons c s =>
    rw [List.dropWhile_cons_of_pos (show p c = true from first)]
    exact Nat.lt_succ_of_le (dropWhile_length_le p s)

theorem readXattr_ok (fuel : Nat) (s : List Byte) (enough : s.length < fuel) :
    ∃ xattr rest, readXattr fuel s = .ok (xattr, rest) ∧ rest.length ≤ s.length := by
  induction fuel generalizing s with
  | zero => exact absurd enough (Nat.not_lt_zero _)
  | succ fuel ih =>
    have shorter := dropWhile_length_le isSpace s
    rw [readXattr]
    dsimp only
    by_cases last : cur (s.dropWhile isSpace) = 0 ∨ cur (s.dropWhile isSpace) = 62 ∨
        cur (s.dropWhile isSpace) = 47
    · rw [if_pos last]
      exact ⟨_, _, rfl, shorter⟩
    · rw [if_neg last]
      have noSpace := cur_dropWhile isSpace s fun zero => last (.inl zero)
      generalize s.dropWhile isSpace = t at last noSpace shorter ⊢
      have named := dropWhile_length_le nameChar t
      by_cases equals : cur (t.dropWhile nameChar) = 61
      · rw [if_pos equals]
        have behind := tail_length_lt equals (by decide)
        have value := readValue_length_le (t.dropWhile nameChar).tail
        obtain ⟨xattr, rest, read, less⟩ := ih (readValue (t.dropWhile nameChar).tail).2 (by omega)
        rw [read]
        exact ⟨_, _, rfl, by dsimp only; omega⟩
      · rw [if_neg equals]
        have first : nameChar (cur t) = true := by
          by_contra other
          have same : t.dropWhile nameChar = t := by
            cases t with
            | nil => rfl
            | cons c t => exact List.dropWhile_cons_of_neg other
          rw [same] at equals
          simp only [not_or] at last
          simp [nameChar, tagChar, noSpace, last, equals] at other
        have name := dropWhile_length_lt first fun zero => last (.inl zero)
        obtain ⟨xattr, rest, read, less⟩ := ih (t.dropWhile nameChar) (by omega)
        rw [read]
        exact ⟨_, _, rfl, by dsimp only; omega⟩

theorem skipInstruction_length_le (quoteMode : Byte) (s : List Byte) :
    (skipInstruction quoteMode s).length ≤ s.length := by
  induction s generalizing quoteMode with
  | nil => exact le_rfl
  | cons c s ih =>
    rw [skipInstruction, List.length_cons]
    have own := ih c
    have none := ih 0
    have same := ih quoteMode
    split_ifs
    · exact le_rfl
    all_goals omega

theorem readComment_length_le (noDash : Nat) (wrbuf s : List Byte) :
    (readComment noDash wrbuf s).2.length ≤ s.length := by
  induction s generalizing noDash wrbuf with
  | nil => exact le_rfl
  | cons c s ih =>
    rw [readComment, List.length_cons]
    have dash := ih (noDash + 1) (wrbuf ++ [c])
    have other := ih 0 (wrbuf ++ [c])
    split_ifs
    · exact le_rfl
    · omega
    · exact Nat.le_succ s.length
    · omega

theorem skipDirective_length_le (blevel : Nat) (s : List Byte) :
    (skipDirective blevel s).length ≤ s.length := by
  induction s generalizing blevel with
  | nil => exact le_rfl
  | cons c s ih =>
    rw [skipDirective, List.length_cons]
    have more := ih (blevel + 1)
    have less := ih (blevel - 1)
    have same := ih blevel
    split_ifs
    · exact le_rfl
    all_goals omega

def Markup.rest : Markup → List Byte
  | .stop => []
  | .skip rest => rest
  | .comment _ rest => rest
  | .malformed => []
  | .tag _ _ _ _ rest => rest

theorem readTag_ok (endTag : Bool) (s : List Byte) :
    ∃ markup, readTag endTag s = .ok markup ∧ markup.rest.length ≤ s.length := by
  have shorter := dropWhile_length_le tagChar s
  obtain ⟨xattr, rest, read, less⟩ := readXattr_ok (s.length + 1) (s.dropWhile tagChar) (by omega)
  have close : (if cur rest = 47 then rest.tail else rest).length ≤ rest.length := by
    split_ifs
    · exact tail_length_le rest
    · exact le_rfl
  rw [readTag, read]
  simp only [Except.bind]
  by_cases ends : cur (if cur rest = 47 then rest.tail else rest) = 62
  · rw [if_pos ends]
    have behind := tail_length_le (if cur rest = 47 then rest.tail else rest)
    exact ⟨_, rfl, by dsimp only [Markup.rest]; omega⟩
  · rw [if_neg ends]
    exact ⟨_, rfl, Nat.zero_le _⟩

theorem readMarkup_ok (s : List Byte) :
    ∃ markup, readMarkup s = .ok markup ∧ markup.rest.length ≤ s.length := by
  have one := tail_length_le s
  have two := tail_length_le s.tail
  have three := tail_length_le s.tail.tail
  rw [readMarkup]
  by_cases slash : cur s = 47
  · rw [if_pos slash]
    obtain ⟨markup, read, less⟩ := readTag_ok true s.tail
    exact ⟨markup, read, by omega⟩
  rw [if_neg slash]
  by_cases query : cur s = 63
  · rw [if_pos query]
    have less := skipInstruction_length_le 0 s.tail
    exact ⟨_, rfl, by dsimp only [Markup.rest]; omega⟩
  rw [if_neg query]
  by_cases mark : cur s = 33
  · rw [if_pos mark]
    by_cases last : cur s.tail = 0
    · rw [if_pos last]
      exact ⟨_, rfl, Nat.zero_le _⟩
    rw [if_neg last]
    by_cases dashes : cur s.tail = 45 ∧ cur s.tail.tail = 45
    · rw [if_pos dashes]
      have less := readComment_length_le 0 [] s.tail.tail.tail
      rcases same : readComment 0 [] s.tail.tail.tail with ⟨_ | text, rest⟩
      all_goals rw [same] at less
      · exact ⟨.skip rest, rfl, less.trans (three.trans (two.trans one))⟩
      · exact ⟨.comment text rest, rfl, less.trans (three.trans (two.trans one))⟩
    · rw [if_neg dashes]
      have less := skipDirective_length_le 0 s.tail.tail
      exact ⟨_, rfl, by dsimp only [Markup.rest]; omega⟩
  · rw [if_neg mark]
    exact readTag_ok false s

/-- What is open: the nodes below the level belong to the root at the bottom. -/
structure Open (st : State) (r : Nat) (type : List Byte) : Prop where
  small : st.level ≤ 250
  base : st.stack 0 = .node r
  root : ∃ n, st.nodes[r]? = some n ∧ n.content = .root type
  each : ∀ i < st.level, ∃ id n, st.stack i = .node id ∧ st.nodes[id]? = some n ∧ n.root = r

/-- A loop is outside of all nodes, or some are open. -/
def Inv (st : State) : Prop :=
  (st.level = 0 ∧ st.stack 0 = .null) ∨ (0 < st.level ∧ ∃ r type, Open st r type)

variable {st : State} {r : Nat} {type : List Byte}
variable {id i : Nat} {n : Node}

theorem node_of_get (at' : st.nodes[id]? = some n) : st.node (some id) = .ok n := by
  rw [State.node, at']

theorem Open.slot (open' : Open st r type) (less : i < st.level) :
    ∃ id n, st.slot i = .ok (some id) ∧ st.nodes[id]? = some n ∧ n.root = r := by
  obtain ⟨id, n, on, at', own⟩ := open'.each i less
  have small := open'.small
  refine ⟨id, n, ?_, at', own⟩
  rw [State.slot, if_pos (by omega), on]

theorem Open.nodeAt (open' : Open st r type) (less : i < st.level) : ∃ n, st.nodeAt i = .ok n := by
  obtain ⟨id, n, on, at', -⟩ := open'.slot less
  refine ⟨n, ?_⟩
  rw [State.nodeAt, on]
  exact node_of_get at'

theorem Open.nodeAt_zero (open' : Open st r type) :
    ∃ n, st.nodeAt 0 = .ok n ∧ n.content = .root type := by
  obtain ⟨n, at', own⟩ := open'.root
  refine ⟨n, ?_, own⟩
  rw [State.nodeAt, State.slot, if_pos (by decide), open'.base]
  exact node_of_get at'

theorem Open.parent (open' : Open st r type) (pos : 0 < st.level) :
    ∃ id n, st.parent = .ok (some id) ∧ st.nodes[id]? = some n ∧ n.root = r := by
  rw [State.parent, if_neg (Nat.ne_of_gt pos)]
  exact open'.slot (Nat.sub_lt pos Nat.one_pos)

theorem append_get (content : Content) (parent : Option Nat)
    (at' : st.nodes[id]? = some n) : (st.append content parent).nodes[id]? = some n := by
  rw [State.append]
  dsimp only
  rw [List.getElem?_append_left (List.getElem?_eq_some_iff.mp at').1]
  exact at'

theorem append_last {p : Nat} (content : Content) (at' : st.nodes[p]? = some n) :
    (st.append content (some p)).nodes = st.nodes ++ [⟨content, some p, n.root⟩] := by
  rw [State.append]
  dsimp only [Option.bind]
  rw [at']

theorem Open.append (open' : Open st r type) (content : Content) (parent : Option Nat) :
    Open (st.append content parent) r type where
  small := open'.small
  base := open'.base
  root := open'.root.imp fun _ own => ⟨append_get content parent own.1, own.2⟩
  each i less := by
    obtain ⟨id, n, on, at', own⟩ := open'.each i less
    exact ⟨id, n, on, append_get content parent at', own⟩

theorem store_ok (less : i < 256) (slot : Slot) :
    st.store i slot = .ok { st with stack := fun j => if j = i then slot else st.stack j } :=
  if_pos less

theorem Open.above (open' : Open st r type) (pos : 0 < st.level) (above : st.level ≤ i)
    (slot : Slot) :
    Open { st with stack := fun j => if j = i then slot else st.stack j } r type where
  small := open'.small
  base := by
    dsimp only
    rw [if_neg (by omega)]
    exact open'.base
  root := open'.root
  each k less := by
    dsimp only at less ⊢
    rw [if_neg (by omega)]
    exact open'.each k less

theorem Open.level (open' : Open st r type) (less : i ≤ st.level) :
    Open { st with level := i } r type where
  small := less.trans open'.small
  base := open'.base
  root := open'.root
  each k less' := open'.each k (Nat.lt_of_lt_of_le less' less)

theorem Open.push (open' : Open st r type) (pos : 0 < st.level) (nullTag : Bool)
    (last : st.nodes[st.nodes.length - 1]? = some n) (own : n.root = r) :
    ∃ st', push st nullTag = .ok st' ∧ 0 < st'.level ∧ Open st' r type := by
  have small := open'.small
  have once := open'.above pos le_rfl (.node (st.nodes.length - 1))
  have twice := once.above pos (Nat.le_succ st.level) .null
  rw [ReadNodex.push, store_ok (by omega)]
  simp only [Except.bind]
  rw [store_ok (show st.level + 1 < 256 by omega)]
  refine ⟨_, rfl, ?_⟩
  by_cases more : st.level < 250 ∧ nullTag = false
  · rw [if_pos more]
    refine ⟨Nat.succ_pos _, more.1, twice.base, twice.root, fun i less => ?_⟩
    dsimp only at less
    by_cases new : i = st.level
    · refine ⟨_, n, ?_, last, own⟩
      dsimp only
      rw [if_neg (by omega), if_pos new]
    · exact twice.each i (by dsimp only; omega)
  · rw [if_neg more]
    exact ⟨pos, twice⟩

theorem Open.findOpen (open' : Open st r type) (tag : List Byte) (i : Nat) (less : i ≤ st.level) :
    ∃ found, findOpen st tag i = .ok found ∧ ∀ k, found = some k → k < i := by
  induction i with
  | zero => exact ⟨none, rfl, fun k some => by cases some⟩
  | succ i ih =>
    obtain ⟨n, at'⟩ := open'.nodeAt (Nat.lt_of_succ_le less)
    rw [ReadNodex.findOpen, at']
    simp only [Except.bind]
    by_cases closed : n.content.closedBy tag = true
    · rw [if_pos closed]
      exact ⟨some i, rfl, fun k same => Option.some.inj same ▸ Nat.lt_succ_self i⟩
    · rw [if_neg closed]
      obtain ⟨found, same, below⟩ := ih (Nat.le_of_succ_le less)
      exact ⟨found, same, fun k some => (below k some).trans (Nat.lt_succ_self i)⟩

theorem Open.variantLevel (open' : Open st r type) (tp i : Nat) (pos : 0 < i)
    (less : i ≤ st.level) :
    ∃ found, variantLevel st tp i = .ok found ∧ ∀ k, found = some k → 0 < k ∧ k < i := by
  induction i with
  | zero => exact absurd pos (Nat.lt_irrefl 0)
  | succ i ih =>
    obtain ⟨n, at'⟩ := open'.nodeAt (Nat.lt_of_succ_le less)
    obtain ⟨bottom, atBottom, isRoot⟩ := open'.nodeAt_zero
    rw [ReadNodex.variantLevel, at']
    simp only [Except.bind]
    have none' : ∀ k : Nat, (none : Option Nat) = some k → 0 < k ∧ k < i + 1 :=
      fun k some => by cases some
    cases content : n.content with
    | variant triple =>
      have above : 0 < i := by
        rcases Nat.eq_zero_or_pos i with rfl | above
        · obtain rfl : n = bottom := Except.ok.inj (at'.symm.trans atBottom)
          exact Content.noConfusion (isRoot.symm.trans content)
        · exact above
      dsimp only
      by_cases same : triple.map Prod.fst = some tp
      · rw [if_pos same]
        exact ⟨some i, rfl, fun k some => Option.some.inj some ▸ ⟨above, Nat.lt_succ_self i⟩⟩
      · rw [if_neg same]
        obtain ⟨found, same, below⟩ := ih above (Nat.le_of_succ_le less)
        exact ⟨found, same, fun k some =>
          ⟨(below k some).1, (below k some).2.trans (Nat.lt_succ_self i)⟩⟩
    | _ => exact ⟨none, rfl, none'⟩

variable {getAbsyn : List Byte → Option Absyn}

def State.rootType (st : State) : Option (List Byte) :=
  match st.stack 0 with
  | .node r =>
    match (st.nodes[r]?).map Node.content with
    | some (.root type) => some type
    | _ => none
  | _ => none

/-- A `<var class type value>` that comes next is in a tree whose abstract syntax has a variant
set. -/
def VarPlaced (getAbsyn : List Byte → Option Absyn) (st : State) (s : List Byte) : Prop :=
  ∀ tag xattr nullTag rest, cur s = 60 →
    readMarkup s.tail = .ok (.tag false tag xattr nullTag rest) → varTriple tag xattr ≠ none →
    ∃ type varset, st.rootType = some type ∧ (getAbsyn type).bind Absyn.varset = some varset

/-- A round that returns or goes on with fewer bytes -/
inductive Proceeds (s : List Byte) : Except ReadStop Round → Prop
  | returns (res : Option Nat) (nodes : List Node) : Proceeds s (.ok (.returns res nodes))
  | next {st : State} {rest : List Byte} : Inv st → rest.length < s.length →
      Proceeds s (.ok (.next st rest))

theorem Open.rootType (open' : Open st r type) : st.rootType = some type := by
  obtain ⟨n, at', own⟩ := open'.root
  rw [State.rootType, open'.base]
  dsimp only
  rw [at', Option.map_some, own]

theorem Open.rootVarset (open' : Open st r type) (at' : st.nodes[id]? = some n) (own : n.root = r) :
    rootVarset getAbsyn st (some id) =
      ((getAbsyn type).bind Absyn.varset).elim (.error .null) .ok := by
  obtain ⟨root, atRoot, isRoot⟩ := open'.root
  rw [ReadNodex.rootVarset, node_of_get at']
  simp only [Except.bind]
  rw [own, node_of_get atRoot]
  simp only
  rw [isRoot]
  dsimp only
  cases (getAbsyn type).bind Absyn.varset with
  | none => rfl
  | some varset => rfl

theorem Inv.slot_zero (inv : Inv st) : ∃ res, st.slot 0 = .ok res := by
  rw [State.slot, if_pos (by decide)]
  rcases inv with ⟨-, null⟩ | ⟨-, r, type, open'⟩
  · rw [null]
    exact ⟨none, rfl⟩
  · rw [open'.base]
    exact ⟨some r, rfl⟩

theorem Inv.endLevel (inv : Inv st) (tag : List Byte) :
    ∃ found, endLevel st tag = .ok found ∧ ∀ k, found = some k → k ≤ st.level := by
  rw [ReadNodex.endLevel]
  by_cases anonymous : tag = []
  · rw [if_pos anonymous]
    exact ⟨_, rfl, fun k same => Option.some.inj same ▸ Nat.sub_le st.level 1⟩
  rw [if_neg anonymous]
  rcases inv with ⟨zero, -⟩ | ⟨pos, r, type, open'⟩
  · rw [zero]
    exact ⟨some 0, rfl, fun k same => Option.some.inj same ▸ le_rfl⟩
  · obtain ⟨found, same, below⟩ := open'.findOpen tag st.level le_rfl
    rw [same]
    simp only [Except.bind]
    rw [if_neg (Nat.ne_of_gt pos)]
    cases found with
    | none => exact ⟨none, rfl, fun k some => by cases some⟩
    | some k => exact ⟨some k, rfl, fun k' same => Nat.le_of_lt (below k' same)⟩

theorem endRound_proceeds (inv : Inv st) (tag : List Byte) {rest : List Byte}
    (less : rest.length < s.length) : Proceeds s (endRound st tag rest) := by
  obtain ⟨found, same, below⟩ := inv.endLevel tag
  rw [endRound, same]
  simp only [Except.bind]
  cases found with
  | none => exact .returns _ _
  | some level =>
    dsimp only
    by_cases last : level ≤ 1
    · rw [if_pos last]
      obtain ⟨res, slot⟩ := inv.slot_zero
      rw [slot]
      exact .returns _ _
    · rw [if_neg last]
      have within := below level rfl
      rcases inv with ⟨zero, -⟩ | ⟨-, r, type, open'⟩
      · omega
      · exact .next (.inr ⟨by dsimp only; omega, r, type, open'.level within⟩) less

/-- Where nodes are open, a comment goes below the innermost one. -/
theorem commentRound_next (pos : 0 < st.level) (open' : Open st r type) (text rest : List Byte) :
    ∃ st', commentRound st text rest = .ok (.next st' rest) ∧ 0 < st'.level ∧ Open st' r type := by
  have small := open'.small
  obtain ⟨id, n, slot, -⟩ := open'.slot (Nat.sub_lt pos Nat.one_pos)
  have appended := open'.append (.comment text) (some id)
  rw [commentRound, if_neg (Nat.ne_of_gt pos), slot]
  simp only [Except.bind]
  rw [store_ok (by omega)]
  exact ⟨_, rfl, pos, appended.above pos le_rfl _⟩

theorem commentRound_proceeds (inv : Inv st) (text : List Byte) {rest : List Byte}
    (less : rest.length < s.length) : Proceeds s (commentRound st text rest) := by
  rcases inv with inv | ⟨pos, r, type, open'⟩
  · rw [commentRound, if_pos inv.1]
    exact .next (.inl inv) less
  · obtain ⟨st', same, pos', open''⟩ := commentRound_next pos open' text rest
    rw [same]
    exact .next (.inr ⟨pos', r, type, open''⟩) less

/-- Where nodes are open, a text goes below the innermost one. -/
theorem textRound_next (pos : 0 < st.level) (open' : Open st r type) (parent : Option Nat)
    (s : List Byte) :
    ∃ st', textRound st parent s = .ok (.next st' (s.dropWhile textChar)) ∧ 0 < st'.level ∧
      Open st' r type := by
  have small := open'.small
  have appended := open'.append (.data (s.takeWhile textChar)) parent
  rw [textRound, if_neg (Nat.ne_of_gt pos), store_ok (by omega)]
  exact ⟨_, rfl, pos, appended.above pos le_rfl _⟩

theorem textRound_proceeds (inv : Inv st) (parent : Option Nat) (more : cur s ≠ 0)
    (text : cur s ≠ 60) : Proceeds s (textRound st parent s) := by
  rcases inv with inv | ⟨pos, r, type, open'⟩
  · rw [textRound, if_pos inv.1]
    exact .next (.inl inv) (tail_length_lt rfl more)
  · obtain ⟨st', same, pos', open''⟩ := textRound_next pos open' parent s
    rw [same]
    refine .next (.inr ⟨pos', r, type, open''⟩) (dropWhile_length_lt ?_ more)
    rw [textChar, bne_iff_ne.mpr more, bne_iff_ne.mpr text]
    rfl

variable {parent : Option Nat}

/-- An element is put on the stack, below a root of its own where it is the outermost. -/
theorem startElement_push (inv : Inv st) (read : st.parent = .ok parent)
    (tag : List Byte) (xattr : List Xattr) (nullTag : Bool) :
    ∃ st' st'', startElement st parent tag xattr = .ok st' ∧ push st' nullTag = .ok st'' ∧
      Inv st'' := by
  rw [startElement]
  rcases inv with inv | ⟨pos, r, type, open'⟩
  · rw [if_pos inv.1, store_ok (by decide)]
    simp only [Except.bind]
    have root : (st.append (.root tag) none).nodes[st.nodes.length]? =
        some ⟨.root tag, none, st.nodes.length⟩ := List.getElem?_concat_length
    have opened : Open { st.append (.root tag) none with
        stack := fun j => if j = 0 then .node st.nodes.length else st.stack j
        level := 1 } st.nodes.length tag := by
      refine ⟨show 1 ≤ 250 by decide, rfl, ⟨_, root, rfl⟩, fun i less => ?_⟩
      obtain rfl : i = 0 := Nat.lt_one_iff.mp less
      exact ⟨_, _, rfl, root, rfl⟩
    have appended := opened.append (.tag tag xattr) (some st.nodes.length)
    have last := append_last (.tag tag xattr) (show (State.mk (st.append (.root tag) none).nodes
      (fun j => if j = 0 then .node st.nodes.length else st.stack j) 1).nodes[st.nodes.length]? =
        some ⟨.root tag, none, st.nodes.length⟩ from root)
    obtain ⟨st'', pushed, pos, open''⟩ := appended.push Nat.one_pos nullTag
      (n := ⟨.tag tag xattr, some st.nodes.length, st.nodes.length⟩)
      (by rw [last, List.length_append]; exact List.getElem?_concat_length) rfl
    exact ⟨_, st'', rfl, pushed, .inr ⟨pos, _, _, open''⟩⟩
  · rw [if_neg (Nat.ne_of_gt pos)]
    obtain ⟨id, n, read', at', own⟩ := open'.parent pos
    obtain rfl := Except.ok.inj (read.symm.trans read')
    have appended := open'.append (.tag tag xattr) (some id)
    have last := append_last (.tag tag xattr) at'
    obtain ⟨st'', pushed, pos', open''⟩ := appended.push pos nullTag
      (n := ⟨.tag tag xattr, some id, n.root⟩)
      (by rw [last, List.length_append]; exact List.getElem?_concat_length) own
    exact ⟨_, st'', rfl, pushed, .inr ⟨pos', _, _, open''⟩⟩

/-- Where there is a variant set, a variant is put on the stack, unless its type is unknown. -/
theorem Open.startVariant (open' : Open st r type) (pos : 0 < st.level)
    (read : st.parent = .ok parent) (tclass vartype : List Byte)
    {varset : List Byte → List Byte → Option Nat}
    (set : (getAbsyn type).bind Absyn.varset = some varset) (nullTag : Bool) :
    startVariant getAbsyn st parent tclass vartype = .ok none ∨
    ∃ st' st'', startVariant getAbsyn st parent tclass vartype = .ok (some st') ∧
      ReadNodex.push st' nullTag = .ok st'' ∧ Inv st'' := by
  obtain ⟨id, n, read', at', own⟩ := open'.parent pos
  obtain rfl := Except.ok.inj (read.symm.trans read')
  have pushes {st' : State} (open' : Open st' r type) (pos : 0 < st'.level) (content : Content)
      (at' : st'.nodes[id]? = some n) :
      ∃ st'', ReadNodex.push (st'.append content (some id)) nullTag = .ok st'' ∧ Inv st'' := by
    have last := append_last content at'
    obtain ⟨st'', pushed, pos', open''⟩ := (open'.append content (some id)).push pos nullTag
      (n := ⟨content, some id, n.root⟩)
      (by rw [last, List.length_append]; exact List.getElem?_concat_length) own
    exact ⟨st'', pushed, .inr ⟨pos', _, _, open''⟩⟩
  rw [ReadNodex.startVariant, open'.rootVarset at' own, set]
  simp only [Option.elim, Except.bind]
  cases varset tclass vartype with
  | none => exact .inl rfl
  | some tp =>
    dsimp only
    rw [node_of_get at']
    dsimp only
    have plain := pushes open' pos (.variant none) at'
    cases n.content with
    | variant triple =>
      obtain ⟨found, same, within⟩ := open'.variantLevel tp st.level pos le_rfl
      dsimp only
      rw [same]
      have bounds : 0 < found.getD st.level ∧ found.getD st.level ≤ st.level := by
        cases found with
        | none => exact ⟨pos, le_rfl⟩
        | some k => exact ⟨(within k rfl).1, Nat.le_of_lt (within k rfl).2⟩
      obtain ⟨st'', pushed, inv⟩ :=
        pushes (open'.level bounds.2) bounds.1 (.variant (some (tp, vartype))) at'
      exact .inr ⟨_, st'', rfl, pushed, inv⟩
    -- below a node that is no variant, the first of a group is made
    | _ =>
      obtain ⟨st'', pushed, inv⟩ := plain
      exact .inr ⟨_, st'', rfl, pushed, inv⟩

/-- Without a variant set a null pointer is followed. -/
theorem startVariant_null (inv : Inv st) (read : st.parent = .ok parent)
    (tclass vartype : List Byte)
    (unset : ¬ ∃ type varset, st.rootType = some type ∧
      (getAbsyn type).bind Absyn.varset = some varset) :
    startVariant getAbsyn st parent tclass vartype = .error .null := by
  rw [startVariant]
  rcases inv with ⟨zero, -⟩ | ⟨pos, r, type, open'⟩
  · rw [State.parent, if_pos zero] at read
    obtain rfl := Except.ok.inj read
    rfl
  · obtain ⟨id, n, read', at', own⟩ := open'.parent pos
    obtain rfl := Except.ok.inj (read.symm.trans read')
    rw [open'.rootVarset at' own]
    cases set : (getAbsyn type).bind Absyn.varset with
    | none => rfl
    | some varset => exact absurd ⟨type, varset, open'.rootType, set⟩ unset

/-- A round goes wrong exactly at a variant without a set, and otherwise keeps the stack. -/
theorem round_outcome (inv : Inv st) (s : List Byte) :
    (VarPlaced getAbsyn st s ∧ Proceeds s (round getAbsyn st s)) ∨
    (¬ VarPlaced getAbsyn st s ∧ round getAbsyn st s = .error .null) := by
  have placed {markup : Markup} (read : readMarkup s.tail = .ok markup)
      (other : ∀ tag xattr nullTag rest, markup ≠ .tag false tag xattr nullTag rest) :
      VarPlaced getAbsyn st s := fun tag xattr nullTag rest _ read' =>
    absurd (Except.ok.inj (read.symm.trans read')) (other tag xattr nullTag rest)
  have outside (other : cur s ≠ 60) : VarPlaced getAbsyn st s :=
    fun _ _ _ _ open' => absurd open' other
  obtain ⟨parent, read⟩ : ∃ parent, st.parent = .ok parent := by
    rcases inv with ⟨zero, -⟩ | ⟨pos, r, type, open'⟩
    · exact ⟨none, if_pos zero⟩
    · obtain ⟨id, n, read, -⟩ := open'.parent pos
      exact ⟨some id, read⟩
  rw [round]
  by_cases last : cur s = 0
  · rw [if_pos last]
    exact .inl ⟨outside (by rw [last]; decide), .returns _ _⟩
  rw [if_neg last, read]
  simp only [Except.bind]
  by_cases markup : cur s = 60
  · rw [if_pos markup]
    have shorter := tail_length_lt markup (by decide)
    obtain ⟨markup', read', within⟩ := readMarkup_ok s.tail
    rw [read']
    cases markup' with
    | stop => exact .inl ⟨placed read' (fun _ _ _ _ same => by cases same), .returns _ _⟩
    | skip rest =>
      exact .inl ⟨placed read' (fun _ _ _ _ same => by cases same),
        .next inv (Nat.lt_of_le_of_lt within shorter)⟩
    | comment text rest =>
      exact .inl ⟨placed read' (fun _ _ _ _ same => by cases same),
        commentRound_proceeds inv text (Nat.lt_of_le_of_lt within shorter)⟩
    | malformed => exact .inl ⟨placed read' (fun _ _ _ _ same => by cases same), .returns _ _⟩
    | tag endTag tag xattr nullTag rest =>
      have less : rest.length < s.length := Nat.lt_of_le_of_lt within shorter
      cases endTag with
      | true =>
        exact .inl ⟨placed read' (fun _ _ _ _ same => by cases same),
          endRound_proceeds inv tag less⟩
      | false =>
        simp only [markupRound]
        rw [startRound]
        cases triple : varTriple tag xattr with
        | none =>
          obtain ⟨st', st'', started, pushed, inv'⟩ :=
            startElement_push inv read tag xattr nullTag
          refine .inl ⟨fun tag' xattr' nullTag' rest' _ read'' some => ?_, ?_⟩
          · cases Except.ok.inj (read'.symm.trans read'')
            exact absurd triple some
          · dsimp only
            rw [started]
            simp only [Except.bind]
            rw [pushed]
            exact .next inv' less
        | some names =>
          by_cases set : ∃ type varset, st.rootType = some type ∧
              (getAbsyn type).bind Absyn.varset = some varset
          · refine .inl ⟨fun _ _ _ _ _ _ _ => set, ?_⟩
            obtain ⟨type, varset, isType, hasSet⟩ := set
            rcases id inv with ⟨-, null⟩ | ⟨pos, r, type', open'⟩
            · rw [State.rootType, null] at isType
              cases isType
            · obtain rfl := Option.some.inj (isType.symm.trans open'.rootType)
              dsimp only
              rcases open'.startVariant pos read names.1 names.2 hasSet nullTag with
                unknown | ⟨st', st'', made, pushed, inv'⟩
              · rw [unknown]
                exact .next inv less
              · rw [made]
                simp only [Except.bind]
                rw [pushed]
                exact .next inv' less
          · refine .inr ⟨fun all => set (all tag xattr nullTag rest markup read' ?_), ?_⟩
            · rw [triple]
              exact Option.some_ne_none names
            · dsimp only
              rw [startVariant_null inv read names.1 names.2 set]
              rfl
  · rw [if_neg markup]
    exact .inl ⟨outside markup, textRound_proceeds inv parent last markup⟩

/-- The states the loop comes to, with the input that is left there -/
inductive Reaches (getAbsyn : List Byte → Option Absyn) (st : State) (s : List Byte) :
    State → List Byte → Prop
  | here : Reaches getAbsyn st s st s
  | next {st' st'' : State} {s' s'' : List Byte} :
      Reaches getAbsyn st s st' s' → round getAbsyn st' s' = .ok (.next st'' s'') →
      Reaches getAbsyn st s st'' s''

theorem Reaches.head {st' st'' : State} {s' s'' : List Byte}
    (first : round getAbsyn st s = .ok (.next st' s')) (rest : Reaches getAbsyn st' s' st'' s'') :
    Reaches getAbsyn st s st'' s'' := by
  induction rest with
  | here => exact .next .here first
  | next _ more ih => exact .next ih more

theorem Reaches.cases_head {st' : State} {s' : List Byte} (reaches : Reaches getAbsyn st s st' s') :
    (st' = st ∧ s' = s) ∨ ∃ st₁ s₁, round getAbsyn st s = .ok (.next st₁ s₁) ∧
      Reaches getAbsyn st₁ s₁ st' s' := by
  induction reaches with
  | here => exact .inl ⟨rfl, rfl⟩
  | next _ more ih =>
    rcases ih with ⟨rfl, rfl⟩ | ⟨st₁, s₁, first, rest⟩
    · exact .inr ⟨_, _, more, .here⟩
    · exact .inr ⟨st₁, s₁, first, .next rest more⟩

/-- The loop ends, and nothing goes wrong in it exactly if each variant it comes to has a set. -/
theorem rounds_safe_iff (fuel : Nat) (inv : Inv st) (s : List Byte) (enough : s.length < fuel) :
    (∃ res, rounds getAbsyn fuel st s = .ok res) ↔
      ∀ st' s', Reaches getAbsyn st s st' s' → VarPlaced getAbsyn st' s' := by
  induction fuel generalizing st s with
  | zero => exact absurd enough (Nat.not_lt_zero _)
  | succ fuel ih =>
    rw [rounds]
    rcases @round_outcome st getAbsyn inv s with ⟨placed, proceeds⟩ | ⟨bad, same⟩
    · cases same : round getAbsyn st s with
      | error e =>
        rw [same] at proceeds
        cases proceeds
      | ok result =>
        rw [same] at proceeds
        cases proceeds with
        | returns res nodes =>
          refine iff_of_true ⟨_, rfl⟩ fun st' s' reaches => ?_
          rcases reaches.cases_head with ⟨rfl, rfl⟩ | ⟨st₁, s₁, first, -⟩
          · exact placed
          · cases same.symm.trans first
        | next inv' less =>
          rename_i st₁ s₁
          refine (ih inv' s₁ (by omega)).trans ⟨fun all st' s' reaches => ?_,
            fun all st' s' reaches => all st' s' (reaches.head same)⟩
          rcases reaches.cases_head with ⟨rfl, rfl⟩ | ⟨st₂, s₂, first, rest⟩
          · exact placed
          · cases same.symm.trans first
            exact all st' s' rest
    · rw [same]
      refine iff_of_false (fun ok => ?_) fun all => bad (all st s .here)
      obtain ⟨res, ok⟩ := ok
      cases ok

theorem inv_start : Inv .start := .inl ⟨rfl, rfl⟩

end Zebra.ReadNodex
