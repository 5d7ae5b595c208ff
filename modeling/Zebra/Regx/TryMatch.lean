import Zebra.Lib.Fuel
import Zebra.Regx.Attempt

/-!
# Searching for a pattern

`tryMatch` looks for the first place behind the pointer from which the automaton of a pattern
matches, and takes the longest match there.
-/

namespace Zebra.Regx

open Dfa

/-- The variables of `tryMatch`; `no` is the number of `state`. -/
structure TryState where
  no : Nat
  c : Byte
  cPrev : Byte
  ptr : Nat
  startPtr : Nat
  lastPtr : Nat
  lastRule : Int
  restorePtr : Nat

/-- `if (dfa->states[0] == state)` -/
def TryState.remember (s : TryState) : TryState :=
  if s.no = 0 then { s with cPrev := s.c, restorePtr := s.ptr } else s

/-- A transition to `toNo` on `c` -/
def TryState.go (states : List DfaState) (s : TryState) (toNo ptr : Nat) (c : Byte) : TryState :=
  let state := stateAt states toNo
  if state.ruleNo ≠ 0 ∧ s.cPrev = 10 then
    { s with no := toNo, c, ptr, lastRule := state.ruleNo, lastPtr := ptr }
  else if state.ruleNno ≠ 0 then
    { s with no := toNo, c, ptr, lastRule := state.ruleNno, lastPtr := ptr }
  else { s with no := toNo, c, ptr }

/-- What is returned when an attempt ends: `*mptr` and `*pptr` with 1, if there was a match -/
def TryState.match? (s : TryState) : Option (Nat × Nat) :=
  if s.lastRule ≠ 0 then some (s.startPtr, s.lastPtr) else none

/-- The loop of `tryMatch`: the pointers with 1, or 0 -/
def tryLoop (file : List Byte) (states : List DfaState) :
    Nat → TryState → Option (Option (Nat × Nat))
  | 0, _ => none
  | fuel + 1, s =>
    let s := s.remember
    let (ptr, c) := advance file s.ptr
    if ptr = 2000000000 then some s.match?
    else
      match (stateAt states s.no).next c with
      | none =>
        if s.lastRule ≠ 0 then some s.match?
        else
          let (ptr, c) := advance file s.restorePtr
          tryLoop file states fuel { s with no := 0, c, ptr, startPtr := ptr }
      | some toNo => tryLoop file states fuel (s.go states toNo ptr c)

/-- `tryMatch`; `greedy` is not used. -/
def tryMatch (file : List Byte) (states : List DfaState) (pptr fuel : Nat) :
    Option (Option (Nat × Nat)) :=
  let (ptr, c) := if pptr ≠ 0 then advance file (pptr - 1) else (pptr, 0)
  tryLoop file states fuel
    { no := 0, c, cPrev := 0, ptr, startPtr := pptr, lastPtr := 0, lastRule := 0, restorePtr := 0 }

/-- Directly behind a newline any rule counts, and elsewhere a rule without `^`. -/
def tryRule : RuleOf := fun state newline =>
  if state.ruleNo ≠ 0 ∧ newline = true then state.ruleNo else state.ruleNno

def newlineBefore (file : List Byte) (place : Nat) : Bool :=
  decide (0 < place ∧ file.getD (place - 1) 0 = 10)

def behindNewline (file : List Byte) : LineStart := fun start _ => newlineBefore file start

/-- The leftmost longest match from `start` on, if there is any match -/
def Leftmost (file : List Byte) (states : List DfaState) (rule : RuleOf) (lineStart : LineStart)
    (start : Nat) : Option (Nat × Nat) → Prop
  | none => ∀ place, start ≤ place → Fails file states rule lineStart place
  | some (mptr, pptr) => start ≤ mptr ∧ (∃ r, Longest file states rule lineStart mptr pptr r) ∧
      ∀ place, start ≤ place → place < mptr → Fails file states rule lineStart place

/-- Where the automaton was last in its start state when it has come from `start` to a place -/
def lastEntry (file : List Byte) (states : List DfaState) (start : Nat) : Nat → Nat
  | 0 => start
  | ptr + 1 =>
    if start ≤ ptr ∧ runFrom states 0 (bytes file start (ptr + 1)) = some 0 then ptr + 1
    else lastEntry file states start ptr

/-- Directly behind a newline, of the place where the automaton was last in its start state -/
def entryLine (file : List Byte) (states : List DfaState) : LineStart := fun start stop =>
  newlineBefore file (lastEntry file states start (stop - 1))

section

variable (file : List Byte) (states : List DfaState)

/-- No match begins at the place. -/
abbrev FailsAt (place : Nat) : Prop := Fails file states tryRule (behindNewline file) place

/-- An attempt without a match that is not cut off by the end of the file -/
structure Abandoned (place : Nat) : Prop where
  inside : place < file.length
  fails : Fails file states tryRule (entryLine file states) place
  finished : ¬ Unfinished file states place

/-- The attempts from a place on do not come to the leftmost longest match. -/
inductive Misses : Nat → Prop
  /-- The end of the file ends the search in an attempt, and a match begins there or behind it. -/
  | cutOff {place later} : Unfinished file states place →
      Fails file states tryRule (entryLine file states) place → place ≤ later →
      ¬ FailsAt file states later → Misses place
  /-- The line that is looked at is that of a later place, and it makes a difference. -/
  | line {place stop r} : Longest file states tryRule (entryLine file states) place stop r →
      (∀ r', ¬ Longest file states tryRule (behindNewline file) place stop r') → Misses place
  /-- The next attempt begins behind a match. -/
  | passedOver {place later} : Abandoned file states place → place ≤ later →
      later ≤ lastEntry file states place file.length → ¬ FailsAt file states later → Misses place
  | later {place} : Abandoned file states place →
      Misses (lastEntry file states place file.length + 1) → Misses place

end

variable {file : List Byte} {states : List DfaState} {start : Nat}

theorem lastEntry_le (file : List Byte) (states : List DfaState) (start ptr : Nat) :
    start ≤ lastEntry file states start ptr ∧ lastEntry file states start ptr ≤ max start ptr := by
  induction ptr with
  | zero => exact ⟨le_refl _, le_max_left _ _⟩
  | succ ptr ih =>
    rw [lastEntry]
    split
    · omega
    · omega

theorem lastEntry_self (file : List Byte) (states : List DfaState) (start : Nat) :
    lastEntry file states start start = start := by
  have bounds := lastEntry_le file states start start
  omega

theorem lastEntry_succ {ptr no : Nat} (le : start ≤ ptr)
    (reached : runFrom states 0 (bytes file start (ptr + 1)) = some no) :
    lastEntry file states start (ptr + 1) =
      if no = 0 then ptr + 1 else lastEntry file states start ptr := by
  rw [lastEntry, reached]
  simp only [le, true_and, Option.some.injEq]

/-- Behind the last byte with a transition the start state is not entered. -/
theorem lastEntry_stuck {ptr stop : Nat} (le : start ≤ ptr)
    (stuck : runFrom states 0 (bytes file start (ptr + 1)) = none) (later : ptr ≤ stop) :
    lastEntry file states start stop = lastEntry file states start ptr := by
  induction stop with
  | zero =>
    obtain rfl := Nat.le_zero.mp later
    rfl
  | succ stop ih =>
    rcases later.eq_or_lt with rfl | lt
    · rfl
    · rw [lastEntry, bytes_split file (by omega : start ≤ ptr + 1) (by omega), runFrom_append,
        stuck, if_neg (fun entered => nomatch entered.2), ih (by omega)]

theorem fails_of_le {rule : RuleOf} {lineStart : LineStart} (le : file.length ≤ start) :
    Fails file states rule lineStart start := by
  intro stop r isMatch
  have lt := isMatch.lt
  have inside := isMatch.le
  omega

theorem Longest.fails_not {rule : RuleOf} {lineStart : LineStart} {stop : Nat} {r : Int}
    (longest : Longest file states rule lineStart start stop r) :
    ¬ Fails file states rule lineStart start := fun fails => fails stop r longest.isMatch

/-- An attempt that the end of the file ends without a match -/
theorem leftmost_none_iff (ended : file.length ≤ start ∨ Unfinished file states start)
    (fails : Fails file states tryRule (entryLine file states) start) :
    Leftmost file states tryRule (behindNewline file) start none ↔ ¬ Misses file states start := by
  constructor
  · intro leftmost misses
    cases misses with
    | cutOff _ _ le some_match => exact some_match (leftmost _ le)
    | line longest _ => exact longest.fails_not fails
    | passedOver _ le _ some_match => exact some_match (leftmost _ le)
    | later abandoned _ =>
      rcases ended with outside | unfinished
      · exact absurd abandoned.inside (by omega)
      · exact abandoned.finished unfinished
  · intro none_missed place le
    rcases ended with outside | unfinished
    · exact fails_of_le (by omega)
    · by_contra some_match
      exact none_missed (.cutOff unfinished fails le some_match)

/-- An attempt that has found a match -/
theorem leftmost_some_iff {stop : Nat} {r : Int}
    (longest : Longest file states tryRule (entryLine file states) start stop r) :
    Leftmost file states tryRule (behindNewline file) start (some (start, stop)) ↔
      ¬ Misses file states start := by
  constructor
  · rintro ⟨-, ⟨r', own⟩, -⟩ misses
    cases misses with
    | cutOff _ fails _ _ => exact longest.fails_not fails
    | @line _ stop' _ longest' other =>
      have same : stop' = stop :=
        le_antisymm (longest.longest _ _ longest'.isMatch) (longest'.longest _ _ longest.isMatch)
      exact other r' (same ▸ own)
    | passedOver abandoned _ _ _ => exact longest.fails_not abandoned.fails
    | later abandoned _ => exact longest.fails_not abandoned.fails
  · intro none_missed
    refine ⟨le_refl _, ?_, fun place le lt => absurd le (not_le.mpr lt)⟩
    by_contra other
    exact none_missed (.line longest fun r' own => other ⟨r', own⟩)

/-- An attempt without a match, with what the next one finds -/
theorem leftmost_later_iff {result : Option (Nat × Nat)} (abandoned : Abandoned file states start)
    (later : Leftmost file states tryRule (behindNewline file)
        (lastEntry file states start file.length + 1) result ↔
      ¬ Misses file states (lastEntry file states start file.length + 1))
    (behind : ∀ m ∈ result, lastEntry file states start file.length < m.1) :
    Leftmost file states tryRule (behindNewline file) start result ↔
      ¬ Misses file states start := by
  obtain ⟨start_le, -⟩ := lastEntry_le file states start file.length
  have split : Leftmost file states tryRule (behindNewline file) start result ↔
      (∀ place, start ≤ place → place ≤ lastEntry file states start file.length →
        FailsAt file states place) ∧ Leftmost file states tryRule (behindNewline file)
          (lastEntry file states start file.length + 1) result := by
    cases result with
    | none =>
      constructor
      · exact fun all => ⟨fun place le _ => all place le, fun place le => all place (by omega)⟩
      · rintro ⟨before, after⟩ place le
        rcases Nat.lt_or_ge (lastEntry file states start file.length) place with lt | ge
        · exact after place lt
        · exact before place le ge
    | some pointers =>
      obtain ⟨mptr, pptr⟩ := pointers
      have lt := behind _ rfl
      dsimp only at lt
      constructor
      · rintro ⟨-, longest, all⟩
        exact ⟨fun place le le' => all place le (by omega), by omega, longest,
          fun place le lt => all place (by omega) lt⟩
      · rintro ⟨before, -, longest, after⟩
        refine ⟨by omega, longest, fun place le lt => ?_⟩
        rcases Nat.lt_or_ge (lastEntry file states start file.length) place with behind | ge
        · exact after place behind lt
        · exact before place le ge
  rw [split, later]
  constructor
  · rintro ⟨before, none_missed⟩ misses
    cases misses with
    | cutOff unfinished _ _ _ => exact abandoned.finished unfinished
    | line longest _ => exact longest.fails_not abandoned.fails
    | passedOver _ le le' some_match => exact some_match (before _ le le')
    | later _ misses => exact none_missed misses
  · intro none_missed
    refine ⟨fun place le le' => ?_, fun misses => none_missed (.later abandoned misses)⟩
    by_contra some_match
    exact none_missed (.passedOver abandoned le le' some_match)

/-- The variables in the middle of an attempt from `start` -/
structure Tracks (file : List Byte) (states : List DfaState) (s : TryState) : Prop where
  underway : Underway file states tryRule (entryLine file states) s.startPtr s.ptr s.no s.lastRule
    s.lastPtr
  fresh : s.no = 0 → lastEntry file states s.startPtr s.ptr = s.ptr ∧
    decide (s.c = 10) = newlineBefore file s.ptr
  later : s.no ≠ 0 → s.restorePtr = lastEntry file states s.startPtr s.ptr ∧
    decide (s.cPrev = 10) = newlineBefore file (lastEntry file states s.startPtr s.ptr)

variable {s : TryState}

theorem Tracks.remember (tracks : Tracks file states s) :
    s.remember.restorePtr = lastEntry file states s.startPtr s.ptr ∧
      decide (s.remember.cPrev = 10) =
        newlineBefore file (lastEntry file states s.startPtr s.ptr) ∧
      s.remember.startPtr = s.startPtr ∧ s.remember.ptr = s.ptr ∧ s.remember.no = s.no ∧
      s.remember.lastRule = s.lastRule ∧ s.remember.lastPtr = s.lastPtr := by
  rw [TryState.remember]
  split
  · next zero =>
      obtain ⟨place, newline⟩ := tracks.fresh zero
      rw [place]
      exact ⟨rfl, newline, rfl, rfl, rfl, rfl, rfl⟩
  · next ne =>
      obtain ⟨place, newline⟩ := tracks.later ne
      exact ⟨place, newline, rfl, rfl, rfl, rfl, rfl⟩

theorem newlineBefore_succ (file : List Byte) (ptr : Nat) :
    decide (file.getD ptr 0 = 10) = newlineBefore file (ptr + 1) :=
  decide_eq_decide.mpr ⟨fun newline => ⟨Nat.succ_pos ptr, newline⟩, fun newline => newline.2⟩

theorem Tracks.go (tracks : Tracks file states s) (lt : s.ptr < file.length) {toNo : Nat}
    (next : (stateAt states s.no).next (file.getD s.ptr 0) = some toNo) :
    Tracks file states (s.remember.go states toNo (s.ptr + 1) (file.getD s.ptr 0)) ∧
      (s.remember.go states toNo (s.ptr + 1) (file.getD s.ptr 0)).ptr = s.ptr + 1 ∧
      (s.remember.go states toNo (s.ptr + 1) (file.getD s.ptr 0)).startPtr = s.startPtr := by
  obtain ⟨restore, newline, start, -, -, lastRule, lastPtr⟩ := tracks.remember
  have entry := lastEntry_succ tracks.underway.le ((tracks.underway.reached_succ lt).trans next)
  -- the variables that the branches leave alone
  have tracked {s' : TryState} (no : s'.no = toNo) (c : s'.c = file.getD s.ptr 0)
      (ptr : s'.ptr = s.ptr + 1) (start' : s'.startPtr = s.startPtr)
      (cPrev : s'.cPrev = s.remember.cPrev) (restore' : s'.restorePtr = s.remember.restorePtr)
      (underway : Underway file states tryRule (entryLine file states) s.startPtr (s.ptr + 1) toNo
        s'.lastRule s'.lastPtr) : Tracks file states s' := by
    refine ⟨?_, fun zero => ?_, fun ne => ?_⟩
    · rw [start', ptr, no]
      exact underway
    · rw [no] at zero
      rw [start', ptr, c, entry, if_pos zero]
      exact ⟨rfl, newlineBefore_succ file s.ptr⟩
    · rw [no] at ne
      rw [start', ptr, cPrev, restore', entry, if_neg ne]
      exact ⟨restore, newline⟩
  have line : entryLine file states s.startPtr (s.ptr + 1) =
      newlineBefore file (lastEntry file states s.startPtr s.ptr) := rfl
  have step {lastRule' : Int} {lastPtr' : Nat} :=
    @Underway.step _ _ _ _ _ _ _ _ _ tracks.underway lt
    toNo next lastRule' lastPtr'
  rw [line, ← newline] at step
  rw [TryState.go]
  split
  · next rule =>
      have rule_eq : tryRule (stateAt states toNo) (decide (s.remember.cPrev = 10)) =
          (stateAt states toNo).ruleNo := if_pos ⟨rule.1, decide_eq_true rule.2⟩
      exact ⟨tracked rfl rfl rfl start rfl rfl
        (step (.inl ⟨rule_eq ▸ rule.1, rule_eq.symm, rfl⟩)), rfl, start⟩
  · next no_rule =>
      have rule_eq : tryRule (stateAt states toNo) (decide (s.remember.cPrev = 10)) =
          (stateAt states toNo).ruleNno :=
        if_neg fun rule => no_rule ⟨rule.1, of_decide_eq_true rule.2⟩
      split
      · next free =>
          exact ⟨tracked rfl rfl rfl start rfl rfl
            (step (.inl ⟨rule_eq ▸ free, rule_eq.symm, rfl⟩)), rfl, start⟩
      · next not_free =>
          exact ⟨tracked rfl rfl rfl start rfl rfl
            (step (.inr ⟨rule_eq.trans (not_not.mp not_free), lastRule, lastPtr⟩)), rfl, start⟩

theorem tracks_again (s : TryState) {place : Nat} (lt : place < file.length)
    (zero : s.lastRule = 0) :
    Tracks file states { s with
      no := 0, c := file.getD place 0, ptr := place + 1, startPtr := place + 1 } where
  underway := by
    dsimp only
    rw [zero]
    exact .begin lt _
  fresh _ := ⟨lastEntry_self file states _, newlineBefore_succ file place⟩
  later no := absurd rfl no

/-- An attempt that cannot go on: it has found the longest match, or it has failed. -/
theorem Tracks.match? (tracks : Tracks file states s)
    (stuck : s.ptr < file.length → (stateAt states s.no).next (file.getD s.ptr 0) = none) :
    (s.lastRule = 0 ∧ s.remember.match? = none ∧
        Fails file states tryRule (entryLine file states) s.startPtr) ∨
      (s.lastRule ≠ 0 ∧ s.remember.match? = some (s.startPtr, s.lastPtr) ∧
        Longest file states tryRule (entryLine file states) s.startPtr s.lastPtr s.lastRule) := by
  obtain ⟨-, -, start, -, -, lastRule, lastPtr⟩ := tracks.remember
  rw [TryState.match?, lastRule, start, lastPtr]
  rcases tracks.underway.stop stuck with ⟨zero, fails⟩ | ⟨ne, longest⟩
  · exact .inl ⟨zero, if_neg fun ne => ne zero, fails⟩
  · exact .inr ⟨ne, if_pos ne, longest⟩

theorem tryLoop_eof (eof : ¬ s.ptr < file.length) (fuel : Nat) :
    tryLoop file states (fuel + 1) s = some s.remember.match? := by
  have ptr : s.remember.ptr = s.ptr := by
    rw [TryState.remember]
    split <;> rfl
  rw [tryLoop]
  dsimp only
  rw [ptr, advance, if_neg eof]
  exact if_pos rfl

/-- What is found from a place on: the leftmost longest match, unless the attempts miss it. -/
def Found (file : List Byte) (states : List DfaState) (start : Nat)
    (result : Option (Nat × Nat)) : Prop :=
  (∀ m ∈ result, start ≤ m.1) ∧
    (Leftmost file states tryRule (behindNewline file) start result ↔ ¬ Misses file states start)

theorem found_match {stop : Nat} {r : Int}
    (longest : Longest file states tryRule (entryLine file states) start stop r) :
    Found file states start (some (start, stop)) := by
  refine ⟨?_, leftmost_some_iff longest⟩
  rintro m same
  exact Option.some.inj same ▸ le_refl _

theorem found_none (ended : file.length ≤ start ∨ Unfinished file states start)
    (fails : Fails file states tryRule (entryLine file states) start) :
    Found file states start none :=
  ⟨nofun, leftmost_none_iff ended fails⟩

theorem Found.later {result : Option (Nat × Nat)}
    (found : Found file states (lastEntry file states start file.length + 1) result)
    (abandoned : Abandoned file states start) : Found file states start result := by
  obtain ⟨behind, iff⟩ := found
  obtain ⟨le, -⟩ := lastEntry_le file states start file.length
  exact ⟨fun m mem => by have := behind m mem; omega, leftmost_later_iff abandoned iff behind⟩

/-- The search ends, and what it has found from its attempt on. -/
theorem tryLoop_spec (short : file.length < 2000000000) (tracks : Tracks file states s) :
    ∃ result, Settles (fun fuel => tryLoop file states fuel s) result ∧
      Found file states s.startPtr result := by
  -- over the places that are left, and for each over the bytes that are left
  induction places : file.length - s.startPtr using Nat.strong_induction_on generalizing s with
  | _ places attempt =>
    induction left : file.length - s.ptr generalizing s with
    | zero =>
      have inside := tracks.underway.inside
      have eof : ¬ s.ptr < file.length := by omega
      have order := tracks.underway.le
      refine ⟨s.remember.match?, .succ ⟨0, fun fuel _ => tryLoop_eof eof fuel⟩, ?_⟩
      rcases tracks.match? fun lt => absurd lt eof with ⟨-, none, fails⟩ | ⟨-, found, longest⟩
      · rw [none]
        refine found_none ?_ fails
        rcases Nat.lt_or_ge s.startPtr file.length with lt | ge
        · have whole : s.ptr = file.length := by omega
          exact .inr ⟨lt, s.no, whole ▸ tracks.underway.reached⟩
        · exact .inl ge
      · rw [found]
        exact found_match longest
    | succ left ih =>
      have lt : s.ptr < file.length := by omega
      have order := tracks.underway.le
      obtain ⟨restore, newline, start, ptr, no, lastRule, -⟩ := tracks.remember
      have read : advance file s.ptr = (s.ptr + 1, file.getD s.ptr 0) := if_pos lt
      cases next : (stateAt states s.no).next (file.getD s.ptr 0) with
      | some toNo =>
        obtain ⟨tracks', ptr', start'⟩ := tracks.go lt next
        obtain ⟨result, settled, found⟩ := ih tracks' (by omega) (by omega)
        have round (fuel : Nat) : tryLoop file states (fuel + 1) s = tryLoop file states fuel
            (s.remember.go states toNo (s.ptr + 1) (file.getD s.ptr 0)) := by
          rw [tryLoop]
          dsimp only
          rw [ptr, no, read, if_neg (by omega), next]
        refine ⟨result, .succ ?_, start' ▸ found⟩
        simp only [round]
        exact settled
      | none =>
        have stuck := (tracks.underway.reached_succ lt).trans next
        have entry := lastEntry_stuck order stuck lt.le
        obtain ⟨start_le, entry_le⟩ := lastEntry_le file states s.startPtr s.ptr
        have entry_lt : lastEntry file states s.startPtr file.length < file.length := by omega
        have round (fuel : Nat) : tryLoop file states (fuel + 1) s =
            if s.lastRule ≠ 0 then some s.remember.match?
            else tryLoop file states fuel { s.remember with
              no := 0, c := file.getD (lastEntry file states s.startPtr file.length) 0
              ptr := lastEntry file states s.startPtr file.length + 1
              startPtr := lastEntry file states s.startPtr file.length + 1 } := by
          rw [tryLoop]
          dsimp only
          rw [ptr, no, lastRule, restore, ← entry, read,
            if_neg (by omega), next, advance, if_pos entry_lt]
        rcases tracks.match? fun _ => next with ⟨zero, -, fails⟩ | ⟨ne, found, longest⟩
        · have again := @tracks_again file states s.remember _ entry_lt (lastRule.trans zero)
          obtain ⟨result, settled, found⟩ := attempt _ (by dsimp only; omega) again rfl
          refine ⟨result, .succ ?_, found.later ⟨by omega, fails, ?_⟩⟩
          · simp only [round, if_neg (not_not.mpr zero)]
            exact settled
          · rintro ⟨-, final, run⟩
            rw [bytes_split file (by omega : s.startPtr ≤ s.ptr + 1) (by omega), runFrom_append,
              stuck] at run
            cases run
        · refine ⟨s.remember.match?, .succ ⟨0, fun fuel _ => ?_⟩, ?_⟩
          · exact (round fuel).trans (if_pos ne)
          · rw [found]
            exact found_match longest

/-- The search ends, with the leftmost longest match if and only if the attempts do not miss it. -/
theorem tryMatch_leftmost_iff (states : List DfaState) (short : file.length < 2000000000)
    (start : Nat) : ∃ result, Settles (tryMatch file states start) result ∧
      (Leftmost file states tryRule (behindNewline file) start result ↔
        ¬ Misses file states start) := by
  have begun {c : Byte} (inside : start ≤ file.length)
      (newline : decide (c = 10) = newlineBefore file start) : Tracks file states
        { no := 0, c, cPrev := 0, ptr := start, startPtr := start, lastPtr := 0, lastRule := 0,
          restorePtr := 0 } :=
    ⟨.begin inside 0, fun _ => ⟨lastEntry_self file states start, newline⟩, fun ne => absurd rfl ne⟩
  by_cases zero : start = 0
  · subst zero
    obtain ⟨result, settled, -, iff⟩ := tryLoop_spec short (begun (c := 0) (Nat.zero_le _) rfl)
    exact ⟨result, settled, iff⟩
  · by_cases inside : start - 1 < file.length
    · obtain ⟨before, rfl⟩ := Nat.exists_eq_succ_of_ne_zero zero
      obtain ⟨result, ⟨enough, settled⟩, -, iff⟩ :=
        tryLoop_spec short (begun inside (newlineBefore_succ file before))
      refine ⟨result, ⟨enough, fun fuel le => ?_⟩, iff⟩
      rw [tryMatch, if_pos zero, advance, if_pos inside]
      exact settled fuel le
    · refine ⟨none, .succ ⟨0, fun fuel _ => ?_⟩,
        leftmost_none_iff (.inl (by omega)) (fails_of_le (by omega))⟩
      change tryMatch file states start (fuel + 1) = some none
      rw [tryMatch, if_pos zero, advance, if_neg inside]
      exact tryLoop_eof (by dsimp only; omega) fuel

/-- The automaton of `abc|b` -/
def abcOrB : List DfaState :=
  [⟨[1, 4], [⟨97, 97, 1⟩, ⟨98, 98, 2⟩], 0, 0⟩, ⟨[2], [⟨98, 98, 3⟩], 0, 0⟩, ⟨[5], [], 1, 1⟩,
    ⟨[3], [⟨99, 99, 2⟩], 0, 0⟩]

/-- In `acb` an attempt is given up and another one finds the match. -/
theorem tryMatch_leftmost_iff_b : ∃ result, Settles (tryMatch [97, 99, 98] abcOrB 0) result ∧
    (Leftmost [97, 99, 98] abcOrB tryRule (behindNewline [97, 99, 98]) 0 result ↔
      ¬ Misses [97, 99, 98] abcOrB 0) :=
  tryMatch_leftmost_iff abcOrB (by decide) 0

/-- In `ab` the attempt for `abc` runs into the end of the file, and `b` is not found. -/
theorem not_tryMatch_leftmost : ¬ ∀ (states : List DfaState) (file : List Byte) (start : Nat),
    (stateAt states 0).ruleNo = 0 → file.length < 2000000000 →
      ∃ result, Settles (tryMatch file states start) result ∧
        Leftmost file states tryRule (behindNewline file) start result := by
  intro all
  obtain ⟨result, ⟨enough, settled⟩, leftmost⟩ := all abcOrB [97, 98] 0 rfl (by decide)
  have nothing : Settles (tryMatch [97, 98] abcOrB 0) none :=
    .succ (.succ (.succ ⟨0, fun fuel _ => rfl⟩))
  cases nothing.unique ⟨enough, settled⟩
  refine leftmost 1 (Nat.zero_le 1) 2 1 ⟨by decide, le_refl _, ⟨2, rfl, rfl⟩, by decide⟩

end Zebra.Regx
