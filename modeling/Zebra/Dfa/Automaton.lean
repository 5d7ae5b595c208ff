import Zebra.Dfa.Compile

/-!
# The automaton of a tree

A state stands for the words that begin at one of its positions.  Running the automaton takes the
letters off such words one by one, so that what it accepts are the words of the tree.
-/

namespace Zebra.Dfa

open List

/-- A tree as `do_parse` leaves it: the tree of the expression with an accepting leaf behind it,
where every leaf has a position of its own and the range of some characters. -/
structure Ready (t1 : Tnode) (pos : Nat) (ch0 ch1 : Int) : Prop where
  distinct : (Tnode.cat t1 (.leaf pos ch0 ch1)).positions.Nodup
  ranges : ∀ p ch, t1.At p ch → 0 ≤ ch.1 ∧ ch.1 ≤ ch.2 ∧ ch.2 ≤ charsetSize
  accepting : ch0 < 0

/-- A word that begins at a position of `set`. -/
def Tnode.Begins (t : Tnode) (set : DFASet) : List Letter → Prop
  | [] => False
  | a :: u => ∃ p ∈ set, t.LetterAt p a ∧ u ∈ t.after p

/-- The transitions of every state have disjoint ranges. -/
def DisjointRanges (states : List DfaState) : Prop :=
  ∀ state ∈ states, state.trans.Pairwise fun t t' =>
    ∀ c, ¬((t.ch0 ≤ c ∧ c ≤ t.ch1) ∧ (t'.ch0 ≤ c ∧ c ≤ t'.ch1))

def Text (w : List Letter) : Prop := ∀ a ∈ w, 0 ≤ a

theorem Tnode.exists_at (t : Tnode) : ∀ p ∈ t.positions, ∃ ch, t.At p ch := by
  induction t with
  | cat p0 p1 ih0 ih1 | or p0 p1 ih0 ih1 =>
    intro p mem
    rcases mem_append.mp mem with mem | mem
    · exact (ih0 p mem).imp fun ch => .inl
    · exact (ih1 p mem).imp fun ch => .inr
  | star p0 ih => exact ih
  | plus p0 ih => exact ih
  | epsilon => simp [positions]
  | leaf pos ch0 ch1 =>
    intro p mem
    exact ⟨(ch0, ch1), mem_singleton.mp mem, rfl⟩

/-- The tree of the expression with the accepting leaf behind it. -/
def rootOf (t1 : Tnode) (pos : Nat) (ch0 ch1 : Int) : Tnode := .cat t1 (.leaf pos ch0 ch1)

/-- What `dfa_trav` leaves for `mk_dfa_tran`. -/
def travOf (root : Tnode) : Trav := (dfaTrav root travInit).2

section

variable {t1 : Tnode} {pos : Nat} {ch0 ch1 : Int} {root : Tnode}

theorem mem_followpos {p q : Nat} : q ∈ (travOf root).followpos p ↔ root.Follow p q := by
  rw [travOf, mem_dfaTrav]
  exact or_iff_right (not_mem_nil)

theorem followpos_ascending : ∀ p, Ascending ((travOf root).followpos p) := by
  have none_yet (p : Nat) : Ascending (travInit.followpos p) := .nil
  exact dfaTrav_ascending root none_yet

variable {set : DFASet}

theorem Reached.positions (reached : Reached (travOf root) root.attr.firstpos set) :
    ∀ p ∈ set, p ∈ root.positions := by
  cases reached with
  | start => exact root.firstpos_mem
  | step c _ _ _ leads =>
    intro p mem
    obtain ⟨i, -, -, follow⟩ := (leads p).mp mem
    exact (mem_followpos.mp follow).mem.2

/-- A tree in which every leaf has a position of its own, and a range of characters or the number of
a rule; nothing comes behind the latter. -/
structure Rooted (root : Tnode) : Prop where
  distinct : root.positions.Nodup
  leaves : ∀ p ch, root.At p ch →
    (0 ≤ ch.1 ∧ ch.1 ≤ ch.2 ∧ ch.2 ≤ charsetSize) ∨ (ch.1 < 0 ∧ root.after p = 1)

theorem Ready.rooted (ready : Ready t1 pos ch0 ch1) : Rooted (rootOf t1 pos ch0 ch1) where
  distinct := ready.distinct
  leaves := by
    rintro p ch (at_p | ⟨rfl, rfl⟩)
    · exact .inl (ready.ranges p ch at_p)
    · have not_mem : p ∉ t1.positions := fun mem =>
        (nodup_append'.mp ready.distinct).2.2 mem (mem_singleton_self p)
      exact .inr ⟨ready.accepting, if_neg not_mem⟩

/-- The state that a word leads to from the state `no` -/
def runTo (states : List DfaState) : Nat → List Letter → Option DfaState
  | no, [] => states[no]?
  | no, c :: w => ((states[no]?).bind (·.next c)).bind fun toNo => runTo states toNo w

theorem acceptsFrom_eq (states : List DfaState) (no : Nat) (w : List Letter) :
    acceptsFrom states no w = (runTo states no w).any fun state => state.ruleNo ≠ 0 := by
  induction w generalizing no with
  | nil => rfl
  | cons c w ih =>
    rw [acceptsFrom, runTo]
    cases (states[no]?).bind (·.next c) with
    | none => rfl
    | some toNo => exact ih toNo

theorem runTo_mem {states : List DfaState} {no : Nat} {w : List Letter} {state : DfaState}
    (run : runTo states no w = some state) : state ∈ states := by
  induction w generalizing no with
  | nil => exact mem_of_getElem? run
  | cons c w ih =>
    obtain ⟨toNo, -, run⟩ := Option.bind_eq_some_iff.mp run
    exact ih run

namespace Rooted

variable (rooted : Rooted root)
include rooted

variable {p : Nat}

theorem at_posar (mem : p ∈ root.positions) {ch : Int × Int} :
    root.At p ch ↔ (travOf root).posar p = ch := by
  obtain ⟨ch', at_p⟩ := root.exists_at p mem
  have unique {ch : Int × Int} (at_p : root.At p ch) : (travOf root).posar p = ch :=
    dfaTrav_posar rooted.distinct travInit at_p
  exact ⟨unique, fun eq => by rwa [← eq, unique at_p]⟩

/-- A position is that of a range of characters or that of a rule. -/
theorem position (mem : p ∈ root.positions) :
    (0 ≤ ((travOf root).posar p).1 ∧ ((travOf root).posar p).1 ≤ ((travOf root).posar p).2 ∧
      ((travOf root).posar p).2 ≤ charsetSize) ∨
    (((travOf root).posar p).1 < 0 ∧ root.after p = 1) :=
  rooted.leaves p _ ((rooted.at_posar mem).mpr rfl)

theorem letterAt_posar (mem : p ∈ root.positions) {a : Letter} :
    root.LetterAt p a ↔ Takes ((travOf root).posar p) a := by
  simp only [Tnode.LetterAt, rooted.at_posar mem, exists_eq_left']

variable {set : DFASet}

/-- The positions that `mk_dfa_tran` looks at have ranges of characters. -/
theorem char_range (positions : ∀ p ∈ set, p ∈ root.positions) :
    ∀ p ∈ charPositions (travOf root).posar set, 0 ≤ ((travOf root).posar p).1 ∧
      ((travOf root).posar p).1 ≤ ((travOf root).posar p).2 ∧
      ((travOf root).posar p).2 ≤ charsetSize := by
  intro p mem
  obtain ⟨mem, low⟩ := mem_filter.mp mem
  rcases rooted.position (positions p mem) with range | ⟨accepting, -⟩
  · exact range
  · simp only [decide_eq_true_eq] at low
    omega

/-- The leaf at a position takes a character if its range holds it. -/
theorem letterAt_iff (mem : p ∈ set) (pos_mem : p ∈ root.positions)
    {c : Letter} (low : 0 ≤ c) : root.LetterAt p c ↔
      p ∈ charPositions (travOf root).posar set ∧ InRange (travOf root).posar p c := by
  rw [rooted.letterAt_posar pos_mem, charPositions, mem_filter, and_iff_right mem,
    decide_eq_true_eq, InRange, Takes]
  rcases rooted.position pos_mem with ⟨char, le, small⟩ | ⟨accepting, -⟩
  · rw [if_pos char]
    exact ⟨fun in_range => ⟨⟨char, le.trans small⟩, in_range⟩, And.right⟩
  · rw [if_neg (not_le.mpr accepting)]
    refine iff_of_false ?_ ?_
    · rintro rfl
      exact absurd low (not_le.mpr accepting)
    · rintro ⟨⟨low, -⟩, -⟩
      exact absurd low (not_le.mpr accepting)

/-- The leaf that takes the number of a rule is the one of that rule, and nothing comes behind
it. -/
theorem rule_iff (pos_mem : p ∈ root.positions) {a : Letter} (neg : a < 0) :
    (root.LetterAt p a ∧ [] ∈ root.after p) ↔ ((travOf root).posar p).1 = a := by
  rw [rooted.letterAt_posar pos_mem, Takes]
  rcases rooted.position pos_mem with ⟨char, -⟩ | ⟨accepting, after⟩
  · rw [if_pos char]
    refine iff_of_false ?_ fun eq => absurd (eq ▸ char) (not_le.mpr neg)
    rintro ⟨⟨le, -⟩, -⟩
    exact absurd (char.trans le) (not_le.mpr neg)
  · rw [if_neg (not_le.mpr accepting), after, and_iff_left Language.nil_mem_one]
    exact eq_comm

/-- A character leads from the words of a set to those of the next set. -/
theorem begins_cons {set' : DFASet} (positions : ∀ p ∈ set, p ∈ root.positions)
    {c : Letter} (low : 0 ≤ c)
    (leads : ∀ q, q ∈ set' ↔ Leads (travOf root) (charPositions (travOf root).posar set) c q)
    {b : Letter} {u : List Letter} :
    root.Begins set (c :: b :: u) ↔ root.Begins set' (b :: u) := by
  constructor
  · rintro ⟨p, mem, letter, rest⟩
    obtain ⟨q, follow, letter', rest'⟩ :=
      (Tnode.cons_mem_after rooted.distinct (positions p mem)).mp rest
    obtain ⟨char, in_range⟩ := (rooted.letterAt_iff mem (positions p mem) low).mp letter
    exact ⟨q, (leads q).mpr ⟨p, char, in_range, mem_followpos.mpr follow⟩, letter', rest'⟩
  · rintro ⟨q, mem', letter', rest'⟩
    obtain ⟨p, char, in_range, follow⟩ := (leads q).mp mem'
    have mem := (mem_filter.mp char).1
    have letter := (rooted.letterAt_iff mem (positions p mem) low).mpr ⟨char, in_range⟩
    exact ⟨p, mem, letter, (Tnode.cons_mem_after rooted.distinct (positions p mem)).mpr
      ⟨q, mem_followpos.mp follow, letter', rest'⟩⟩

/-- A word, with the number of a rule behind it, begins at a position of the state's set if and only
if the state that it leads to has a position of the rule. -/
theorem runTo_iff {states : List DfaState}
    (reached : ∀ state ∈ states, Reached (travOf root) root.attr.firstpos state.set)
    (finished : ∀ state ∈ states, Finished (travOf root) states state)
    {w : List Letter} (text : Text w) {no : Nat} (get : setOf states no = some set)
    {a : Letter} (neg : a < 0) : root.Begins set (w ++ [a]) ↔
      ∃ state, runTo states no w = some state ∧ ∃ p ∈ state.set, ((travOf root).posar p).1 = a := by
  induction w generalizing no set with
  | nil =>
    obtain ⟨state, state_eq, rfl⟩ := Option.map_eq_some_iff.mp get
    have mem := mem_of_getElem? state_eq
    simp only [runTo, state_eq, Option.some.injEq, exists_eq_left', nil_append, Tnode.Begins]
    refine exists_congr fun p => and_congr_right fun p_mem => ?_
    exact rooted.rule_iff ((reached state mem).positions p p_mem) neg
  | cons c w ih =>
    obtain ⟨low, text⟩ := forall_mem_cons.mp text
    obtain ⟨state, state_eq, rfl⟩ := Option.map_eq_some_iff.mp get
    have mem := mem_of_getElem? state_eq
    have positions := (reached state mem).positions
    have steps := (finished state mem).steps
    obtain ⟨b, u, word_eq⟩ : ∃ b u, w ++ [a] = b :: u := exists_cons_of_ne_nil (by simp)
    have split (set' : DFASet) (leads : ∀ q, q ∈ set' ↔
        Leads (travOf root) (charPositions (travOf root).posar state.set) c q) :
        root.Begins state.set (c :: w ++ [a]) ↔ root.Begins set' (w ++ [a]) := by
      rw [cons_append, word_eq]
      exact rooted.begins_cons positions low leads
    simp only [runTo, state_eq, Option.bind_some, DfaState.next]
    cases found : state.trans.find? fun tran => tran.ch0 ≤ c ∧ c ≤ tran.ch1 with
    | some tran =>
      have covers : tran.ch0 ≤ c ∧ c ≤ tran.ch1 := by simpa using find?_some found
      obtain ⟨set', get', leads⟩ := steps.leads tran (mem_of_find?_eq_some found)
      rw [split set' (leads c covers.1 covers.2), Option.map_some]
      exact ih text get'
    | none =>
      have uncovered : ∀ t ∈ state.trans, ¬(t.ch0 ≤ c ∧ c ≤ t.ch1) := by
        simpa using find?_eq_none.mp found
      have nowhere (q : Nat) :
          ¬Leads (travOf root) (charPositions (travOf root).posar state.set) c q := by
        by_cases small : c < charsetSize + 1
        · exact steps.none c low small uncovered q
        · -- no leaf takes a character as great as this
          rintro ⟨p, char, in_range, -⟩
          obtain ⟨-, -, high⟩ := rooted.char_range positions p char
          exact small (Int.lt_add_one_of_le (in_range.2.trans high))
      rw [split [] fun q => iff_of_false not_mem_nil (nowhere q), word_eq]
      simp [Tnode.Begins]

end Rooted

/-- With the rule's number behind them, the words of the tree are the words of the expression. -/
theorem concat_mem_rootOf (accepting : ch0 < 0) {w : List Letter} :
    w ++ [ch0] ∈ (rootOf t1 pos ch0 ch1).lang ↔ w ∈ t1.lang := by
  have takes_iff (a : Letter) : Takes (ch0, ch1) a ↔ a = ch0 := by
    rw [Takes, if_neg (not_le.mpr accepting)]
  simp only [rootOf, Tnode.lang]
  constructor
  · rintro ⟨u, u_mem, v, ⟨a, rfl, takes⟩, eq⟩
    obtain ⟨rfl, -⟩ := append_inj' eq rfl
    exact u_mem
  · exact fun mem => ⟨w, mem, [ch0], ⟨ch0, rfl, (takes_iff ch0).mpr rfl⟩, rfl⟩

theorem Reached.ascending {s : Trav} {start : DFASet} (reached : Reached s start set)
    (ascending : Ascending start) : Ascending set := by
  cases reached with
  | start => exact ascending
  | step c _ _ ascending' _ => exact ascending'

/-- When the states are made, every set that comes up has one, and they are not too many. -/
theorem Building.not_tooMany {s : Trav} {start : DFASet} {dfas : DfaStates}
    (building : Building s start dfas) (ascending : Ascending start)
    (finished : ∀ state ∈ dfas.states, Finished s dfas.states state)
    (chars : ∀ set, Reached s start set → ∀ i ∈ charPositions s.posar set,
      0 ≤ (s.posar i).1 ∧ (s.posar i).2 ≤ charsetSize) :
    ¬TooMany s start := by
  have closed {set : DFASet} (reached : Reached s start set) :
      ∃ no, setOf dfas.states no = some set := by
    induction reached with
    | start => exact ⟨0, building.first⟩
    | @step set set' c reached ne ascending' leads ih =>
      obtain ⟨no, get⟩ := ih
      obtain ⟨state, state_eq, rfl⟩ := Option.map_eq_some_iff.mp get
      have steps := (finished state (mem_of_getElem? state_eq)).steps
      obtain ⟨q, q_mem⟩ := exists_mem_of_ne_nil _ ne
      have q_leads := (leads q).mp q_mem
      have covered : ∃ t ∈ state.trans, t.ch0 ≤ c ∧ c ≤ t.ch1 := by
        by_contra uncovered
        obtain ⟨i, i_mem, in_range, follow⟩ := q_leads
        obtain ⟨low, high⟩ := chars _ reached i i_mem
        exact steps.none c (low.trans in_range.1) (Int.lt_add_one_of_le (in_range.2.trans high))
          (fun t mem covers => uncovered ⟨t, mem, covers⟩) q ⟨i, i_mem, in_range, follow⟩
      obtain ⟨t, mem, le, le'⟩ := covered
      obtain ⟨set'', get'', leads''⟩ := steps.leads t mem
      obtain ⟨state'', state_eq'', rfl⟩ := Option.map_eq_some_iff.mp get''
      have ascending'' := (building.reached _ (mem_of_getElem? state_eq'')).ascending ascending
      have same := ascending''.eq ascending' fun q => (leads'' c le le' q).trans (leads q).symm
      exact ⟨t.toNo, same ▸ get''⟩
  rintro ⟨sets, nodup, many, reached⟩
  have sub : sets ⊆ dfas.states.map (·.set) := by
    intro set mem
    obtain ⟨no, get⟩ := closed (reached set mem)
    obtain ⟨state, state_eq, rfl⟩ := Option.map_eq_some_iff.mp get
    exact mem_map_of_mem (mem_of_getElem? state_eq)
  have le := (nodup.subperm sub).length_le
  have few := building.few
  rw [length_map] at le
  omega

theorem Steps.disjoint {s : Trav} {states : List DfaState} {set : List Nat} {bound : Int}
    {trs : List DfaTran} (steps : Steps s states set bound trs) :
    trs.Pairwise fun t t' => ∀ c, ¬((t.ch0 ≤ c ∧ c ≤ t.ch1) ∧ (t'.ch0 ≤ c ∧ c ≤ t'.ch1)) := by
  refine steps.ascending.imp fun {t t'} lt c => ?_
  rintro ⟨⟨-, le⟩, ⟨le', -⟩⟩
  omega

/-- A tree without the empty word has a first position. -/
theorem Tnode.firstpos_ne_nil (t : Tnode) (not_nullable : t.attr.nullable = false) :
    ∃ p, p ∈ t.attr.firstpos := by
  induction t with
  | cat p0 p1 ih0 ih1 =>
    simp only [attr]
    split
    · next nullable =>
      obtain ⟨p, mem⟩ := ih1 (by simpa [attr, nullable] using not_nullable)
      exact ⟨p, mem_unionDFASet.mpr (.inr mem)⟩
    · next not_nullable0 => exact ih0 (by simpa using not_nullable0)
  | or p0 p1 ih0 ih1 =>
    obtain ⟨p, mem⟩ := ih0 (Bool.or_eq_false_iff.mp not_nullable).1
    exact ⟨p, mem_unionDFASet.mpr (.inl mem)⟩
  | star p0 ih => exact absurd not_nullable (by simp [attr])
  | plus p0 ih => exact ih not_nullable
  | epsilon => exact absurd not_nullable (by simp [attr])
  | leaf pos ch0 ch1 => exact ⟨pos, mem_singleton_self pos⟩

def startStates (set : DFASet) : DfaStates :=
  { states := [{ set, trans := [], ruleNo := 0, ruleNno := 0 }], unmarked := [0] }

theorem startStates_building (s : Trav) (set : DFASet) : Building s set (startStates set) where
  first := rfl
  distinct := nodup_singleton _
  reached state mem := by
    rw [mem_singleton.mp mem]
    exact .start
  unmarked_lt no mem := by
    rw [mem_singleton.mp mem]
    exact Nat.lt_one_iff.mpr rfl
  unmarked_nodup := nodup_singleton _
  few := Nat.le_add_left 1 _

theorem startStates_marked (s : Trav) (set : DFASet) : Marked s (startStates set) := by
  intro no state get not_mem
  obtain ⟨lt, -⟩ := List.getElem?_eq_some_iff.mp get
  exact absurd (mem_singleton.mpr (Nat.lt_one_iff.mp lt)) not_mem

/-- More sets of positions come up for a tree than states can be numbered. -/
def TooManyStates (root : Tnode) : Prop := TooMany (travOf root) root.attr.firstpos

/-- `dfa_mkstate` makes the states of a tree, unless there are too many. -/
theorem Rooted.dfaMkstate (rooted : Rooted root) (not_nullable : root.attr.nullable = false)
    {position : Nat} (few : position < catCode) :
    ∃ out, Settles (dfaMkstate position root) out ∧
      ((out = .error .stateNo ∧ TooManyStates root) ∨
        ∃ dfas, out = .ok dfas.states ∧ ¬TooManyStates root ∧
          Building (travOf root) root.attr.firstpos dfas ∧
          ∀ state ∈ dfas.states, Finished (travOf root) dfas.states state) := by
  obtain ⟨p, p_mem⟩ := root.firstpos_ne_nil not_nullable
  have fresh : addDfaState { states := [], unmarked := [] } root.attr.firstpos =
      .ok (0, startStates root.attr.firstpos) := by
    simp [addDfaState, startStates, ne_nil_of_mem p_mem]
  have made : Dfa.dfaMkstate position root = fun fuel =>
      stateLoop (travOf root) fuel (startStates root.attr.firstpos) >>= fun out =>
        some (out.map DfaStates.states) := by
    funext fuel
    simp only [Dfa.dfaMkstate, if_neg (not_le.mpr few), dfaTrav_attr, fresh]
    refine congrArg _ (funext fun out => ?_)
    cases out <;> rfl
  have chars (set : DFASet) (reached : Reached (travOf root) root.attr.firstpos set) :=
    rooted.char_range reached.positions
  obtain ⟨out, settles, result⟩ := stateLoop_spec
    (fun set reached i mem => (chars set reached i mem).2.1) followpos_ascending
    (startStates_building (travOf root) root.attr.firstpos) (startStates_marked _ _)
  rw [made]
  rcases result with ⟨rfl, too_many⟩ | ⟨dfas, rfl, building, finished⟩
  · exact ⟨.error .stateNo, settles.bind (.pure _), .inl ⟨rfl, too_many⟩⟩
  · refine ⟨.ok dfas.states, settles.bind (.pure _), .inr ⟨dfas, rfl, ?_, building, finished⟩⟩
    refine building.not_tooMany root.attr_ascending.1 finished fun set reached i mem => ?_
    exact ⟨(chars set reached i mem).1, (chars set reached i mem).2.2⟩

/-- `dfa_mkstate` builds an automaton for the words of the expression, unless there are too many
states. -/
theorem dfaMkstate_spec (ready : Ready t1 pos ch0 ch1) {position : Nat} (few : position < catCode) :
    ∃ out, Settles (dfaMkstate position (rootOf t1 pos ch0 ch1)) out ∧
      ((out = .error .stateNo ∧ TooManyStates (rootOf t1 pos ch0 ch1)) ∨
        ∃ states, out = .ok states ∧ ¬TooManyStates (rootOf t1 pos ch0 ch1) ∧
          (∀ w, Text w → (accepts states w = true ↔ w ∈ t1.lang)) ∧ DisjointRanges states) := by
  have rooted := ready.rooted
  obtain ⟨out, settles, ⟨rfl, too_many⟩ | ⟨dfas, rfl, fits, building, finished⟩⟩ :=
    rooted.dfaMkstate (by simp [rootOf, Tnode.attr]) few
  · exact ⟨_, settles, .inl ⟨rfl, too_many⟩⟩
  refine ⟨_, settles, .inr ⟨_, rfl, fits, fun w text => ?_, ?_⟩⟩
  · obtain ⟨a, u, word_eq⟩ : ∃ a u, w ++ [ch0] = a :: u := exists_cons_of_ne_nil (by simp)
    calc accepts dfas.states w = true
        ↔ ∃ state, runTo dfas.states 0 w = some state ∧
            ∃ p ∈ state.set, ((travOf (rootOf t1 pos ch0 ch1)).posar p).1 = ch0 := by
          rw [accepts, acceptsFrom_eq, Option.any_eq_true]
          refine exists_congr fun state => and_congr_right fun run => ?_
          have mem := runTo_mem run
          rw [decide_eq_true_iff, (finished state mem).rule_ne_zero]
          refine exists_congr fun p => and_congr_right fun p_mem => ?_
          -- the only rule is that of the accepting leaf
          have pos_mem := (building.reached state mem).positions p p_mem
          rcases (rooted.at_posar pos_mem).mpr rfl with at_p | ⟨-, posar_eq⟩
          · have accepting := ready.accepting
            have range := (ready.ranges p _ at_p).1
            exact iff_of_false (by omega) (by omega)
          · rw [posar_eq]
            exact iff_of_true ready.accepting rfl
      _ ↔ (rootOf t1 pos ch0 ch1).Begins (rootOf t1 pos ch0 ch1).attr.firstpos (w ++ [ch0]) :=
          (rooted.runTo_iff building.reached finished text building.first ready.accepting).symm
      _ ↔ w ++ [ch0] ∈ (rootOf t1 pos ch0 ch1).lang := by
          rw [word_eq]
          exact (Tnode.cons_mem_lang ready.distinct).symm
      _ ↔ w ∈ t1.lang := concat_mem_rootOf ready.accepting
  · exact fun state mem => (finished state mem).steps.disjoint

/-- What may come behind a word depends on a set that comes up. -/
theorem Rooted.reached_word (rooted : Rooted root)
    (reached : Reached (travOf root) root.attr.firstpos set)
    {u : List Letter} (chars : ∀ a ∈ u, 0 ≤ a ∧ a ≤ charsetSize) {b : Letter} {v : List Letter}
    (begins : root.Begins set (u ++ b :: v)) :
    ∃ set', Reached (travOf root) root.attr.firstpos set' ∧
      ∀ b v, root.Begins set (u ++ b :: v) ↔
        root.Begins set' (b :: v) := by
  induction u generalizing set with
  | nil => exact ⟨set, reached, fun b v => Iff.rfl⟩
  | cons c u ih =>
    obtain ⟨⟨low, small⟩, chars⟩ := forall_mem_cons.mp chars
    have spec := findChar1_spec
      (fun i mem => (rooted.char_range reached.positions i mem).2.1) small
    have ascending : Ascending (findChar1 (travOf root)
        (charPositions (travOf root).posar set) c).2 :=
      findChar1_ascending followpos_ascending c
    have next (b : Letter) (v : List Letter) :
        root.Begins set (c :: u ++ b :: v) ↔
          root.Begins (findChar1 (travOf root)
            (charPositions (travOf root).posar set) c).2 (u ++ b :: v) := by
      obtain ⟨b', v', eq⟩ : ∃ b' v', u ++ b :: v = b' :: v' := exists_cons_of_ne_nil (by simp)
      rw [cons_append, eq]
      exact rooted.begins_cons reached.positions low spec.set
    have begins' := (next b v).mp begins
    have ne : (findChar1 (travOf root)
        (charPositions (travOf root).posar set) c).2 ≠ [] := by
      obtain ⟨b', v', eq⟩ : ∃ b' v', u ++ b :: v = b' :: v' := exists_cons_of_ne_nil (by simp)
      rw [eq] at begins'
      obtain ⟨p, mem, -⟩ := begins'
      exact ne_nil_of_mem mem
    obtain ⟨set', reached', iff⟩ := ih (.step c reached ne ascending spec.set) chars begins'
    exact ⟨set', reached', fun b v => (next b v).trans (iff b v)⟩

/-- Words that are told apart by what may come behind them have states of their own. -/
theorem Ready.tooManyStates (ready : Ready t1 pos ch0 ch1) {words : List (List Letter)}
    (nodup : words.Nodup) (many : shrtMax + 1 < words.length)
    (chars : ∀ u ∈ words, ∀ a ∈ u, 0 ≤ a ∧ a ≤ charsetSize)
    (extended : ∀ u ∈ words, ∃ x, u ++ x ∈ t1.lang)
    (apart : ∀ u ∈ words, ∀ v ∈ words, (∀ x, u ++ x ∈ t1.lang ↔ v ++ x ∈ t1.lang) → u = v) :
    TooManyStates (rootOf t1 pos ch0 ch1) := by
  have in_lang (u x : List Letter) : (rootOf t1 pos ch0 ch1).Begins
      (rootOf t1 pos ch0 ch1).attr.firstpos (u ++ (x ++ [ch0])) ↔ u ++ x ∈ t1.lang := by
    obtain ⟨b, v, eq⟩ : ∃ b v, u ++ (x ++ [ch0]) = b :: v := exists_cons_of_ne_nil (by simp)
    calc (rootOf t1 pos ch0 ch1).Begins (rootOf t1 pos ch0 ch1).attr.firstpos (u ++ (x ++ [ch0]))
        ↔ u ++ (x ++ [ch0]) ∈ (rootOf t1 pos ch0 ch1).lang := by
          rw [eq]
          exact (Tnode.cons_mem_lang ready.distinct).symm
      _ ↔ u ++ x ∈ t1.lang := by
          rw [← append_assoc]
          exact concat_mem_rootOf ready.accepting
  have has_set (u : List Letter) (mem : u ∈ words) :
      ∃ set, Reached (travOf (rootOf t1 pos ch0 ch1)) (rootOf t1 pos ch0 ch1).attr.firstpos set ∧
        ∀ x, u ++ x ∈ t1.lang ↔ (rootOf t1 pos ch0 ch1).Begins set (x ++ [ch0]) := by
    obtain ⟨x, x_mem⟩ := extended u mem
    obtain ⟨b, v, eq⟩ : ∃ b v, x ++ [ch0] = b :: v := exists_cons_of_ne_nil (by simp)
    have begins := (in_lang u x).mpr x_mem
    rw [eq] at begins
    obtain ⟨set, reached, iff⟩ := ready.rooted.reached_word .start (chars u mem) begins
    refine ⟨set, reached, fun y => ?_⟩
    obtain ⟨b, v, eq⟩ : ∃ b v, y ++ [ch0] = b :: v := exists_cons_of_ne_nil (by simp)
    rw [← in_lang, eq]
    exact iff b v
  choose! set reached iff using has_set
  refine ⟨words.map set, nodup.map_on ?_, by rwa [length_map], ?_⟩
  · intro u u_mem v v_mem same
    refine apart u u_mem v v_mem fun x => ?_
    rw [iff u u_mem, iff v v_mem, same]
  · intro set' mem
    obtain ⟨u, u_mem, rfl⟩ := mem_map.mp mem
    exact reached u u_mem

end

end Zebra.Dfa
