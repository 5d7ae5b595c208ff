import Zebra.Dfa.Rules
import Zebra.Regx.TryMatch

/-!
# Cutting a file into matches

`lexNode`: from where the last match ended the automaton of the context is run from one position
after the other, until one matches; the bytes in between are data.  The actions of the rules leave
the pointer, the context and the stop flag alone.
-/

namespace Zebra.Regx

open Dfa

/-- What `lexNode` does with a part of the file: it passes it to `execDataP`, or executes a rule. -/
inductive Event where
  | execData (start stop : Nat)
  | execRule (ruleNo : Int) (start stop : Nat)
  deriving DecidableEq

/-- The variables of `lexNode`; `no` is the number of `state`. -/
structure LexState where
  no : Nat
  cPrev : Byte
  ptr : Nat
  startPtr : Nat
  lastPtr : Nat
  skipPtr : Nat
  lastRule : Int
  more : Bool

/-- The bytes that `f_win_get` gives from `skip_ptr` on are at most as many as the window has. -/
def LexState.skipped (file : List Byte) (winSize : Nat) (s : LexState) (stop : Nat) : List Event :=
  if s.skipPtr < stop then [.execData s.skipPtr (min stop (min file.length (s.skipPtr + winSize)))]
  else []

/-- The rule of a match is executed, and the bytes in front of it are data. -/
def LexState.execute (file : List Byte) (winSize : Nat) (s : LexState) : List Event :=
  if s.lastRule ≠ 0 then
    s.skipped file winSize s.startPtr ++ [.execRule s.lastRule s.startPtr s.lastPtr]
  else []

def LexState.atEof (s : LexState) : LexState :=
  { s with no := 0, ptr := s.lastPtr, skipPtr := s.lastPtr, lastRule := 0 }

/-- No transition: the next attempt begins behind the match, or one byte later. -/
def LexState.again (file : List Byte) (s : LexState) : LexState :=
  if s.lastRule ≠ 0 then
    let (startPtr, cPrev) :=
      if s.lastPtr > 0 then advance file (s.lastPtr - 1) else (s.lastPtr, s.cPrev)
    { s with no := 0, cPrev, ptr := s.lastPtr, startPtr, skipPtr := s.lastPtr, lastRule := 0 }
  else
    let (startPtr, cPrev) := advance file s.startPtr
    { s with no := 0, cPrev, ptr := startPtr, startPtr }

/-- A transition to `toNo` -/
def LexState.go (states : List DfaState) (s : LexState) (toNo : Nat) : LexState :=
  let state := stateAt states toNo
  if state.ruleNo ≠ 0 then
    if s.cPrev = 10 then
      { s with no := toNo, lastRule := state.ruleNo, lastPtr := s.ptr, more := true }
    else if state.ruleNno ≠ 0 then
      { s with no := toNo, lastRule := state.ruleNno, lastPtr := s.ptr, more := true }
    else { s with no := toNo, more := true }
  else { s with no := toNo }

/-- The loop of `lexNode`: what is returned, and what has been done.  At the end of the file the
character is 0. -/
def lexLoop (file : List Byte) (states : List DfaState) (winSize : Nat) :
    Nat → LexState → Option (Bool × List Event)
  | 0, _ => none
  | fuel + 1, s =>
    let (ptr, c) := advance file s.ptr
    if ptr = 2000000000 ∧ s.lastRule = 0 then some (s.more, s.skipped file winSize ptr)
    else
      let (done, s) := if ptr = 2000000000 then (s.execute file winSize, s.atEof) else ([],
          { s with ptr })
      match (stateAt states s.no).next c with
      | none =>
        (lexLoop file states winSize fuel (s.again file)).map fun (more, events) =>
          (more, done ++ s.execute file winSize ++ events)
      | some toNo =>
        (lexLoop file states winSize fuel (s.go states toNo)).map fun (more, events) =>
          (more, done ++ events)

def lexNode (file : List Byte) (states : List DfaState) (winSize ptr fuel : Nat) :
    Option (Bool × List Event) :=
  lexLoop file states winSize fuel
    { no := 0, cPrev := 10, ptr, startPtr := ptr, lastPtr := ptr, skipPtr := ptr, lastRule := 0
      more := false }

/-- A state stands for a rule only if it has one for the start of a line. -/
def lexRule : RuleOf := fun state newline =>
  if state.ruleNo ≠ 0 then if newline = true then state.ruleNo else state.ruleNno else 0

/-- The position that the search begins at counts as the start of a line. -/
def lineAt (file : List Byte) (ptr start : Nat) : Bool :=
  decide (start = ptr ∨ file.getD (start - 1) 0 = 10)

def atLine (file : List Byte) (ptr : Nat) : LineStart := fun start _ => lineAt file ptr start

def dataBefore (start stop : Nat) : List Event :=
    if start < stop then [.execData start stop] else []

/-- The repeated leftmost longest search from `start` on in a file of some size, for the matches of
a relation, with every byte in one part; the last piece of data may be empty. -/
inductive Tokenises (size : Nat) (isMatch : Nat → Nat → Int → Prop) : Nat → List Event → Prop
  | rest {start} : (∀ place, start ≤ place → ∀ stop r, ¬ isMatch place stop r) →
      Tokenises size isMatch start [.execData start size]
  | next {start place stop r events} : start ≤ place →
      (∀ before, start ≤ before → before < place → ∀ stop r, ¬ isMatch before stop r) →
      isMatch place stop r → (∀ stop' r', isMatch place stop' r' → stop' ≤ stop) →
      Tokenises size isMatch stop events →
      Tokenises size isMatch start (dataBefore start place ++ .execRule r place stop :: events)

variable (file : List Byte) (states : List DfaState) (rule : RuleOf) (lineStart : LineStart)

/-- Where the search makes attempts, and where the last match ended -/
inductive Attempted (ptr : Nat) : Nat → Nat → Prop
  | start : Attempted ptr ptr ptr
  | failed {skip place} : Attempted ptr skip place → place < file.length →
      Fails file states rule lineStart place → Attempted ptr skip (place + 1)
  | matched {skip place stop r} : Attempted ptr skip place →
      Longest file states rule lineStart place stop r → Attempted ptr stop stop

/-- The end of the file cuts off no attempt, and the window holds what lies between two matches. -/
def Undisturbed (winSize ptr : Nat) : Prop :=
  ∀ skip place, Attempted file states rule lineStart ptr skip place →
    ¬Unfinished file states place ∧ place ≤ skip + winSize

/-- A match for the rules: the longest one is taken, and of the rules the first. -/
structure RuleMatches (rules : List Rule) (start stop : Nat) (r : Int) : Prop where
  lt : start < stop
  le : stop ≤ file.length
  smallest : Smallest rules (fun rule => (rule.anchored = true → lineStart start stop = true) ∧
    (bytes file start stop).map Nat.cast ∈ rule.lang) r
  ne : r ≠ 0

variable {file states rule lineStart} {winSize ptr : Nat} {s : LexState}

theorem Attempted.spec {skip place : Nat}
    (attempted : Attempted file states rule lineStart ptr skip place) :
    ptr ≤ place ∧ skip ≤ place ∧
      ∀ before, skip ≤ before → before < place → Fails file states rule lineStart before := by
  induction attempted with
  | start => exact ⟨le_refl _, le_refl _, fun before le lt => absurd le (not_le.mpr lt)⟩
  | failed _ _ fails ih =>
      obtain ⟨ptr_le, skip_le, before_fails⟩ := ih
      refine ⟨by omega, by omega, fun before le lt => ?_⟩
      rcases Nat.lt_succ_iff_lt_or_eq.mp lt with lt | rfl
      · exact before_fails before le lt
      · exact fails
  | matched _ longest ih =>
      have lt := longest.isMatch.lt
      exact ⟨by omega, le_refl _, fun before le lt => absurd le (not_le.mpr lt)⟩

structure Attempts (file : List Byte) (states : List DfaState) (ptr : Nat) (s : LexState) :
    Prop where
  underway : Underway file states lexRule
    (atLine file ptr) s.startPtr s.ptr s.no s.lastRule s.lastPtr
  newline : decide (s.cPrev = 10) = lineAt file ptr s.startPtr
  attempted : Attempted file states lexRule (atLine file ptr) ptr s.skipPtr s.startPtr

theorem Attempts.go (attempts : Attempts file states ptr s) (lt : s.ptr < file.length) {toNo : Nat}
    (next : (stateAt states s.no).next (file.getD s.ptr 0) = some toNo) :
    let s' := { s with ptr := s.ptr + 1 }.go states toNo
    Attempts file states ptr s' ∧ s'.ptr = s.ptr + 1 ∧ s'.startPtr = s.startPtr ∧
      s'.skipPtr = s.skipPtr := by
  have newline : decide (s.cPrev = 10) = atLine file ptr s.startPtr (s.ptr + 1) := attempts.newline
  have step {lastRule' : Int} {lastPtr' : Nat} :=
    @Underway.step _ _ _ _ _ _ _ _ _ attempts.underway lt
    toNo next lastRule' lastPtr'
  dsimp only
  rw [LexState.go]
  split
  · next some_rule =>
    have rule_eq : lexRule (stateAt states toNo) (atLine file ptr s.startPtr (s.ptr + 1)) =
        if atLine file ptr s.startPtr (s.ptr + 1) = true then (stateAt states toNo).ruleNo
        else (stateAt states toNo).ruleNno := if_pos some_rule
    split
    · next line =>
      rw [if_pos (newline.symm.trans (decide_eq_true line))] at rule_eq
      exact ⟨⟨step (.inl ⟨rule_eq ▸ some_rule, rule_eq.symm, rfl⟩), newline, attempts.attempted⟩,
        rfl, rfl,
        rfl⟩
    · next inside =>
      rw [if_neg fun line => inside (of_decide_eq_true (newline.trans line))] at rule_eq
      split
      · next free =>
        exact ⟨⟨step (.inl ⟨rule_eq ▸ free, rule_eq.symm, rfl⟩), newline, attempts.attempted⟩,
          rfl, rfl,
          rfl⟩
      · next not_free =>
        exact ⟨⟨step (.inr ⟨rule_eq.trans (not_not.mp not_free), rfl, rfl⟩), newline,
          attempts.attempted⟩, rfl, rfl, rfl⟩
  · next no_rule =>
    exact ⟨⟨step (.inr ⟨if_neg no_rule, rfl, rfl⟩), newline, attempts.attempted⟩, rfl, rfl, rfl⟩

/-- The next attempt, one byte later or behind the match -/
theorem Attempts.again (attempts : Attempts file states ptr s) (lt : s.startPtr < file.length)
    (stuck : s.ptr < file.length → (stateAt states s.no).next (file.getD s.ptr 0) = none) :
    Attempts file states ptr (s.again file) ∧ s.startPtr < (s.again file).startPtr ∧
      ((s.lastRule = 0 ∧ (s.again file).skipPtr = s.skipPtr) ∨
        (s.lastRule ≠ 0 ∧ (s.again file).skipPtr = s.lastPtr ∧
          Longest file states lexRule (atLine file ptr) s.startPtr s.lastPtr s.lastRule)) := by
  obtain ⟨ptr_le, -, -⟩ := attempts.attempted.spec
  -- behind a byte of the search, only a newline begins a line
  have line {place : Nat} (before : ptr < place) :
      decide (file.getD (place - 1) 0 = 10) = lineAt file ptr place :=
    decide_eq_decide.mpr (or_iff_right (by omega)).symm
  rw [LexState.again]
  rcases attempts.underway.stop stuck with ⟨zero, fails⟩ | ⟨ne, longest⟩
  · have next_line : decide (file.getD s.startPtr 0 = 10) = lineAt file ptr (s.startPtr + 1) :=
      @line (s.startPtr + 1) (by omega)
    rw [if_neg (not_not.mpr zero), advance, if_pos lt]
    refine ⟨⟨?_, next_line, attempts.attempted.failed lt fails⟩, Nat.lt_succ_self _,
      .inl ⟨zero, rfl⟩⟩
    dsimp only
    rw [zero]
    exact .begin lt _
  · have later := longest.isMatch.lt
    have inside := longest.isMatch.le
    have read : advance file (s.lastPtr - 1) = (s.lastPtr, file.getD (s.lastPtr - 1) 0) := by
      rw [advance, if_pos (by omega), Nat.sub_add_cancel (by omega)]
    rw [if_pos ne, if_pos (by omega), read]
    exact ⟨⟨.begin inside _, line (by omega), attempts.attempted.matched longest⟩, later,
      .inr ⟨ne, rfl, longest⟩⟩

/-- From the attempt on, what the loop does is the leftmost longest search from `skip_ptr` on. -/
theorem lexLoop_spec (short : file.length < 2000000000)
    (undisturbed : Undisturbed file states lexRule (atLine file ptr) winSize ptr)
    (attempts : Attempts file states ptr s) :
    ∃ more events, Settles (fun fuel => lexLoop file states winSize fuel s) (more, events) ∧
      Tokenises file.length (Matches file states lexRule (atLine file ptr)) s.skipPtr events := by
  -- over the places that are left, and for each over the bytes that are left
  induction places : file.length - s.startPtr using Nat.strong_induction_on generalizing s with
  | _ places attempt =>
    induction left : file.length - s.ptr generalizing s with
    | zero =>
      have order := attempts.underway.le
      have inside := attempts.underway.inside
      obtain ⟨finished, near⟩ := undisturbed _ _ attempts.attempted
      obtain ⟨-, skip_le, before⟩ := attempts.attempted.spec
      have start_eq : s.startPtr = file.length := by
        by_contra ne
        have whole : s.ptr = file.length := by omega
        exact finished ⟨by omega, s.no, whole ▸ attempts.underway.reached⟩
      have zero : s.lastRule = 0 := by
        rcases attempts.underway.last with ⟨zero, -⟩ | ⟨isMatch, -⟩
        · exact zero
        · exact absurd isMatch (fails_of_le start_eq.ge _ _)
      have piece : s.skipped file winSize 2000000000 = [.execData s.skipPtr file.length] := by
        have fits : min file.length (s.skipPtr + winSize) = file.length := min_eq_left (by omega)
        rw [LexState.skipped, if_pos (by omega), fits, min_eq_right short.le]
      refine ⟨s.more, [.execData s.skipPtr file.length], .succ ⟨0, fun fuel _ => ?_⟩,
        .rest fun place le => ?_⟩
      · change lexLoop file states winSize (fuel + 1) s = _
        rw [lexLoop, advance, if_neg (by omega)]
        dsimp only
        rw [if_pos ⟨rfl, zero⟩, piece]
      · rcases lt_or_ge place s.startPtr with lt | ge
        · exact before place le lt
        · exact fails_of_le (by omega)
    | succ left ih =>
      have lt : s.ptr < file.length := by omega
      have order := attempts.underway.le
      have read : advance file s.ptr = (s.ptr + 1, file.getD s.ptr 0) := if_pos lt
      cases next : (stateAt states s.no).next (file.getD s.ptr 0) with
      | some toNo =>
        obtain ⟨attempts', ptr', start', skip'⟩ := attempts.go lt next
        obtain ⟨more, events, settled, tokenises⟩ := ih attempts' (by omega) (by omega)
        refine ⟨more, events, .succ ?_, skip' ▸ tokenises⟩
        have round (fuel : Nat) : lexLoop file states winSize (fuel + 1) s =
            (lexLoop file states winSize fuel ({ s with ptr := s.ptr + 1 }.go states toNo)).map
              fun out => (out.1, [] ++ out.2) := by
          rw [lexLoop, read]
          dsimp only
          rw [if_neg (by omega), if_neg (by omega)]
          dsimp only
          rw [next]
        simp only [round]
        exact settled.map fun out => (out.1, [] ++ out.2)
      | none =>
        obtain ⟨attempts', later, outcome⟩ := attempts.again (by omega) fun _ => next
        obtain ⟨more, events, settled, tokenises⟩ := attempt _ (by omega) attempts' rfl
        refine ⟨more, [] ++ s.execute file winSize ++ events, .succ ?_, ?_⟩
        · have round (fuel : Nat) : lexLoop file states winSize (fuel + 1) s =
              (lexLoop file states winSize fuel (s.again file)).map
                fun out => (out.1, [] ++ s.execute file winSize ++ out.2) := by
            rw [lexLoop, read]
            dsimp only
            rw [if_neg (by omega), if_neg (by omega)]
            dsimp only
            rw [next]
            rfl
          simp only [round]
          exact settled.map fun out => (out.1, [] ++ s.execute file winSize ++ out.2)
        · obtain ⟨-, skip_le, before⟩ := attempts.attempted.spec
          have near := (undisturbed _ _ attempts.attempted).2
          rw [LexState.execute]
          rcases outcome with ⟨zero, skip'⟩ | ⟨ne, skip', longest⟩
          · rw [if_neg (not_not.mpr zero)]
            exact skip' ▸ tokenises
          · have piece : s.skipped file winSize s.startPtr = dataBefore s.skipPtr s.startPtr := by
              rw [LexState.skipped, min_eq_left (le_min (by omega) near)]
              rfl
            rw [if_pos ne, piece, List.nil_append, List.append_assoc]
            exact .next skip_le before longest.isMatch longest.longest (skip' ▸ tokenises)

/-- Running by numbers and running by states is the same. -/
theorem runTo_getD (states : List DfaState) (no : Nat) (w : List Byte) :
    (runTo states no (w.map Nat.cast)).getD ⟨[], [], 0, 0⟩ =
      ((runFrom states no w).map (stateAt states)).getD ⟨[], [], 0, 0⟩ := by
  induction w generalizing no with
  | nil =>
    rw [List.map_nil, runTo, runFrom, Option.map_some, Option.getD_some, stateAt,
      List.getD_eq_getElem?_getD]
  | cons c w ih =>
    rw [List.map_cons, runTo, runFrom, stateAt, List.getD_eq_getElem?_getD]
    cases states[no]? with
    | none => rfl
    | some state =>
      rw [Option.bind_some, Option.getD_some]
      cases state.next c with
      | none => rfl
      | some toNo => exact ih toNo

theorem smallest_unique {rules : List Rule} {has : Rule → Prop} {n m : Int}
    (first : Smallest rules has n) (second : Smallest rules has m) : n = m := by
  rcases first with ⟨rfl, none⟩ | ⟨i, rule, get, own, rfl, least⟩
  · rcases second with ⟨rfl, -⟩ | ⟨i, rule, get, own, -⟩
    · rfl
    · exact absurd own (none i rule get)
  · rcases second with ⟨-, none⟩ | ⟨i', rule', get', own', rfl, least'⟩
    · exact absurd own (none i rule get)
    · rw [le_antisymm (least i' rule' get' own') (least' i rule get own)]

theorem matches_iff {rules : List Rule} {start stop : Nat} {r : Int}
    (all : Smallest rules (fun rule => (bytes file start stop).map Nat.cast ∈ rule.lang)
      (ruleNos states ((bytes file start stop).map Nat.cast)).1)
    (free : lineStart start stop = false → Smallest rules (fun rule => rule.anchored = false ∧
      (bytes file start stop).map Nat.cast ∈ rule.lang)
        (ruleNos states ((bytes file start stop).map Nat.cast)).2) :
    Matches file states lexRule lineStart start stop r ↔
      RuleMatches file lineStart rules start stop r := by
  have state := runTo_getD states 0 (bytes file start stop)
  generalize state_eq : ((runFrom states 0 (bytes file start stop)).map (stateAt states)).getD
    ⟨[], [], 0, 0⟩ = own at state
  have nos : ruleNos states ((bytes file start stop).map Nat.cast) = (own.ruleNo, own.ruleNno) := by
    rw [← state, ruleNos]
    cases runTo states 0 ((bytes file start stop).map Nat.cast) <;> rfl
  rw [nos] at all free
  have smallest : Smallest rules (fun rule => (rule.anchored = true → lineStart start stop = true) ∧
      (bytes file start stop).map Nat.cast ∈ rule.lang) (lexRule own (lineStart start stop)) := by
    rw [lexRule]
    cases line : lineStart start stop with
    | true =>
      simp only [implies_true, true_and, if_true]
      split
      · exact all
      · next zero => exact not_not.mp zero ▸ all
    | false =>
      simp only [Bool.false_eq_true, imp_false, Bool.not_eq_true, if_false]
      split
      · exact free line
      · next zero =>
        refine .inl ⟨rfl, ?_⟩
        rintro i rule get ⟨-, mem⟩
        rcases all with ⟨-, none⟩ | ⟨i, rule, -, -, number, -⟩
        · exact none i rule get mem
        · omega
  constructor
  · rintro ⟨lt, le, ⟨no, run, rfl⟩, ne⟩
    rw [run] at state_eq
    obtain rfl : stateAt states no = own := state_eq
    exact ⟨lt, le, smallest, ne⟩
  · rintro ⟨lt, le, least, ne⟩
    obtain rfl := smallest_unique least smallest
    cases run : runFrom states 0 (bytes file start stop) with
    | none =>
      rw [run] at state_eq
      subst state_eq
      exact absurd rfl ne
    | some no =>
      rw [run] at state_eq
      obtain rfl : stateAt states no = own := state_eq
      exact ⟨lt, le, ⟨no, run, rfl⟩, ne⟩

/-- Every place up to a match is one of an attempt. -/
theorem Attempted.upTo {skip place : Nat}
    (attempted : Attempted file states rule lineStart ptr skip skip) (le : skip ≤ place)
    (inside : place ≤ file.length)
    (fails : ∀ before, skip ≤ before → before < place → Fails file states rule lineStart before) :
    Attempted file states rule lineStart ptr skip place := by
  induction place with
  | zero => exact Nat.le_zero.mp le ▸ attempted
  | succ place ih =>
    rcases le.eq_or_lt with rfl | lt
    · exact attempted
    · exact (ih (by omega) (by omega) fun before le lt => fails before le (by omega)).failed
        (by omega) (fails place (by omega) (by omega))

/-- Two relations with the same matches at the places of attempts -/
theorem Tokenises.congr {isMatch : Nat → Nat → Int → Prop}
    (same : ∀ skip place, Attempted file states rule lineStart ptr skip place → ∀ stop r,
      Matches file states rule lineStart place stop r ↔ isMatch place stop r)
    (within : ∀ place stop r, isMatch place stop r → place < file.length) {start : Nat}
    {events : List Event} (attempted : Attempted file states rule lineStart ptr start start)
    (tokenises : Tokenises file.length (Matches file states rule lineStart) start events) :
    Tokenises file.length isMatch start events := by
  induction tokenises with
  | @rest start fails =>
    refine .rest fun place le stop r isMatch => ?_
    have lt := within place stop r isMatch
    have attempted := attempted.upTo le lt.le fun before le _ => fails before le
    exact fails place le stop r ((same _ _ attempted stop r).mpr isMatch)
  | @next start place stop r events le fails own longest _ ih =>
    have inside := own.le
    have lt := own.lt
    have upTo (other : Nat) (le : start ≤ other) (le' : other ≤ place) :
        Attempted file states rule lineStart ptr start other :=
      attempted.upTo le (by omega) fun before le lt => fails before le (by omega)
    have here := upTo place le (le_refl _)
    refine .next le (fun before le lt stop r isMatch => ?_) ((same _ _ here stop r).mp own) ?_
      (ih (here.matched ⟨own, longest⟩))
    · exact fails before le lt stop r ((same _ _ (upTo before le lt.le) stop r).mpr isMatch)
    · exact fun stop' r' isMatch => longest stop' r' ((same _ _ here stop' r').mpr isMatch)

/-- In every file in which no attempt is cut off by the end and no two matches are further apart
than the window is large, what is executed are the matches of the repeated leftmost longest search
for the rules, and every byte is in one of them or in one piece of data.  Inside of lines, no rule
with `^` may come behind one without that has the same word. -/
theorem lexNode_tokenises {rules : List Rule} {root : Tnode} {hi position : Nat}
    (ruled : Ruled root rules hi) (made : Settles (dfaMkstate position root) (.ok states))
    (inOrder : ∀ skip place, Attempted file states lexRule (atLine file ptr) ptr skip place →
      lineAt file ptr place = false → ∀ stop, InOrder rules ((bytes file place stop).map Nat.cast))
    (short : file.length < 2000000000) (inside : ptr ≤ file.length)
    (undisturbed : Undisturbed file states lexRule (atLine file ptr) winSize ptr) :
    ∃ more events, Settles (lexNode file states winSize ptr) (more, events) ∧
      Tokenises file.length (RuleMatches file (atLine file ptr) rules) ptr events := by
  have begun : Attempts file states ptr
      { no := 0, cPrev := 10, ptr, startPtr := ptr, lastPtr := ptr, skipPtr := ptr, lastRule := 0
        more := false } :=
    ⟨.begin inside _, (decide_eq_true rfl).trans (decide_eq_true (.inl rfl)).symm, .start⟩
  obtain ⟨more, events, settled, tokenises⟩ := lexLoop_spec short undisturbed begun
  refine ⟨more, events, settled, tokenises.congr (fun skip place attempted stop r => ?_)
    (fun place stop r isMatch => ?_) .start⟩
  · have text : Text ((bytes file place stop).map Nat.cast) := by
      intro a mem
      obtain ⟨b, -, rfl⟩ := List.mem_map.mp mem
      exact Int.natCast_nonneg b
    obtain ⟨all, free⟩ := ruled.reports made text
    exact matches_iff all fun inside => free.mpr (inOrder skip place attempted inside stop)
  · have lt := isMatch.lt
    have le := isMatch.le
    omega

/-- With the rules `a` and `^a` the file `ab` is one match of the first rule and one piece of
data. -/
theorem lexNode_tokenises_twins : ∃ (p : DfaParse) (rules : List Rule),
    Parses dfaInit [[97], [94, 97]] p (some twinsTree) ∧
      Settles (dfaMkstate p.position twinsTree) (.ok twins) ∧
      List.Forall₂ (Rule.Of dfaInit.anyset) [[97], [94, 97]] rules ∧
      ∃ more events, Settles (lexNode [97, 98] twins 500000 0) (more, events) ∧
        Tokenises 2 (RuleMatches [97, 98] (atLine [97, 98] 0) rules) 0 events := by
  obtain ⟨p, parses, made⟩ := twins_made
  obtain ⟨-, -, -, rules, of, -, ruled⟩ := parses.ruled (.inl rfl)
  have letter : Longest [97, 98] twins lexRule (atLine [97, 98] 0) 0 1 1 := by
    refine ⟨⟨by decide, by decide, ⟨1, rfl, rfl⟩, by decide⟩, fun stop r isMatch => ?_⟩
    have le := isMatch.le
    obtain ⟨no, run, -⟩ := isMatch.accepted
    rcases (by simp at le; omega : stop ≤ 1 ∨ stop = 2) with le | rfl
    · exact le
    · cases run
  have attempts {skip place : Nat}
      (attempted : Attempted [97, 98] twins lexRule (atLine [97, 98] 0) 0 skip place) :
      (skip = 0 ∧ place = 0) ∨ (skip = 1 ∧ (place = 1 ∨ place = 2)) := by
    induction attempted with
    | start => exact .inl ⟨rfl, rfl⟩
    | @failed skip place _ inside fails ih =>
      rcases ih with ⟨rfl, rfl⟩ | ⟨rfl, rfl | rfl⟩
      · exact absurd letter.isMatch (fails 1 1)
      · exact .inr ⟨rfl, .inr rfl⟩
      · exact absurd inside (by decide)
    | @matched skip place stop r _ longest ih =>
      have own := longest.isMatch
      have lt := own.lt
      have le := own.le
      rcases ih with ⟨rfl, rfl⟩ | ⟨rfl, rfl | rfl⟩
      · exact .inr ⟨le_antisymm (letter.longest _ _ own) lt,
          .inl (le_antisymm (letter.longest _ _ own) lt)⟩
      · obtain rfl : stop = 2 := le_antisymm le lt
        obtain ⟨no, run, -⟩ := own.accepted
        cases run
      · exact absurd lt (not_lt.mpr le)
  refine ⟨p, rules, parses, made, of,
    lexNode_tokenises (ruled twinsTree rfl) made ?_ (by decide) (by decide) ?_⟩
  · intro skip place attempted inside stop i rule i' rule' get get' mem
    exfalso
    rw [twins_rules of] at get
    have word : rule.lang = charsLang (· = 97) := by
      rcases i with _ | _ | i
      · exact Option.some.inj get ▸ rfl
      · exact Option.some.inj get ▸ rfl
      · exact absurd get (by simp)
    rw [word] at mem
    obtain ⟨a, rfl, eq⟩ := mem
    rcases attempts attempted with ⟨-, rfl⟩ | ⟨-, rfl | rfl⟩
    · cases inside
    · rcases stop with _ | _ | stop
      · cases eq
      · cases eq
      · cases eq
    · simp [bytes] at eq
  · intro skip place attempted
    rcases attempts attempted with ⟨rfl, rfl⟩ | ⟨rfl, rfl | rfl⟩
    · refine ⟨?_, by decide⟩
      rintro ⟨-, no, run⟩
      cases run
    · refine ⟨?_, by decide⟩
      rintro ⟨-, no, run⟩
      cases run
    · exact ⟨fun cut => absurd cut.1 (by decide), by decide⟩

/-- In `ab` the attempt for `abc` runs into the end of the file, and `b` is data. -/
theorem not_lexNode_tokenises : ¬∀ (states : List DfaState) (file : List Byte) (winSize ptr : Nat),
    (stateAt states 0).ruleNo = 0 → file.length < winSize → winSize < 2000000000 →
      ptr ≤ file.length → ∃ more events, Settles (lexNode file states winSize ptr) (more, events) ∧
        Tokenises file.length (Matches file states lexRule (atLine file ptr)) ptr events := by
  intro all
  obtain ⟨more, events, settled, tokenises⟩ :=
    all abcOrB [97, 98] 500000 0 rfl (by decide) (by decide) (by decide)
  have data : Settles (lexNode [97, 98] abcOrB 500000 0) (false, [.execData 0 2]) := by
    refine .succ (.succ (.succ ⟨0, fun fuel _ => ?_⟩))
    have eof : lexLoop [97, 98] abcOrB 500000 (fuel + 1) ⟨3, 10, 2, 0, 0, 0, 0, false⟩ =
        some (false, [.execData 0 2]) := by
      rw [lexLoop, advance, if_neg (by decide)]
      dsimp only
      rw [if_pos ⟨rfl, rfl⟩, LexState.skipped, if_pos (by decide)]
      rfl
    have rounds : lexNode [97, 98] abcOrB 500000 0 (fuel + 1 + 1 + 1) =
        ((lexLoop [97, 98] abcOrB 500000 (fuel + 1) ⟨3, 10, 2, 0, 0, 0, 0, false⟩).map fun out =>
          (out.1, [] ++ out.2)).map fun out => (out.1, [] ++ out.2) := rfl
    exact rounds.trans (by rw [eof]; rfl)
  obtain ⟨rfl, rfl⟩ := Prod.mk.inj (settled.unique data)
  generalize events_eq : [Event.execData 0 2] = events at tokenises
  cases tokenises with
  | rest fails => exact fails 1 (Nat.zero_le 1) 2 1 ⟨by decide, le_refl _, ⟨2, rfl, rfl⟩, by decide⟩
  | @next _ place stop r events le before own longest rest =>
    rw [dataBefore] at events_eq
    split at events_eq
    · exact absurd (congrArg List.length events_eq) (by simp)
    · exact absurd events_eq (by simp)

end Zebra.Regx
