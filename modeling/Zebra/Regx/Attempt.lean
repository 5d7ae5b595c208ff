import Zebra.Dfa.States
import Zebra.Regx.Window

/-!
# Attempts to match

The filter runs an automaton over the file from one position after the other.  What an attempt from
a position matches is said here of the automaton and the file alone, and what a loop knows in the
middle of an attempt.
-/

namespace Zebra.Regx

open Dfa List

/-- `f_win_advance` as the callers see it: the new position, and the byte -/
def advance (file : List Byte) (ptr : Nat) : Nat × Byte :=
  if ptr < file.length then (ptr + 1, file.getD ptr 0) else (2000000000, 0)

def bytes (file : List Byte) (start stop : Nat) : List Byte := (file.drop start).take (stop - start)

theorem bytes_self (file : List Byte) (start : Nat) : bytes file start start = [] := by
  rw [bytes, Nat.sub_self, take_zero]

theorem bytes_split (file : List Byte) {start middle stop : Nat} (le₁ : start ≤ middle)
    (le₂ : middle ≤ stop) : bytes file start stop = bytes file start middle ++ bytes file middle
      stop := by
  have whole : stop - start = (middle - start) + (stop - middle) := by omega
  have place : start + (middle - start) = middle := by omega
  rw [bytes, whole, take_add, drop_drop, place]
  rfl

theorem bytes_one (file : List Byte) {ptr : Nat} (lt : ptr < file.length) :
    bytes file ptr (ptr + 1) = [file.getD ptr 0] := by
  rw [bytes, Nat.add_sub_cancel_left, drop_eq_getElem_cons lt, getD_eq_getElem _ _ lt]
  rfl

/-- `dfa->states[no]` -/
def stateAt (states : List DfaState) (no : Nat) : DfaState := states.getD no ⟨[], [], 0, 0⟩

/-- The state that some bytes lead to, if there is a transition for each -/
def runFrom (states : List DfaState) : Nat → List Byte → Option Nat
  | no, [] => some no
  | no, c :: w => (stateAt states no).next c >>= fun toNo => runFrom states toNo w

theorem runFrom_append (states : List DfaState) (no : Nat) (w w' : List Byte) :
    runFrom states no (w ++ w') = runFrom states no w >>= fun toNo => runFrom states toNo w' := by
  induction w generalizing no with
  | nil => rfl
  | cons c w ih =>
    rw [cons_append, runFrom, runFrom]
    cases (stateAt states no).next c with
    | none => rfl
    | some toNo => exact ih toNo

/-- Which rule a state stands for; the flag says whether the attempt began at the start of a
line. -/
abbrev RuleOf := DfaState → Bool → Int

/-- Whether what an attempt from one place matches up to another counts as at the start of a line -/
abbrev LineStart := Nat → Nat → Bool

variable (file : List Byte) (states : List DfaState) (rule : RuleOf) (lineStart : LineStart)

/-- The bytes from `start` to `stop` are a match for a rule. -/
structure Matches (start stop : Nat) (r : Int) : Prop where
  lt : start < stop
  le : stop ≤ file.length
  accepted : ∃ no, runFrom states 0 (bytes file start stop) = some no ∧
    rule (stateAt states no) (lineStart start stop) = r
  ne : r ≠ 0

/-- The longest match from `start` -/
structure Longest (start stop : Nat) (r : Int) : Prop where
  isMatch : Matches file states rule lineStart start stop r
  longest : ∀ stop' r', Matches file states rule lineStart start stop' r' → stop' ≤ stop

/-- No match begins at `start`. -/
def Fails (start : Nat) : Prop := ∀ stop r, ¬ Matches file states rule lineStart start stop r

/-- An attempt from `start` is still going on when the file ends. -/
def Unfinished (start : Nat) : Prop :=
  start < file.length ∧ ∃ no, runFrom states 0 (bytes file start file.length) = some no

/-- What is known when an attempt has come from `start` to `ptr`: the longest match so far, or that
there is none. -/
structure Underway (start ptr no : Nat) (lastRule : Int) (lastPtr : Nat) : Prop where
  le : start ≤ ptr
  inside : ptr ≤ file.length
  reached : runFrom states 0 (bytes file start ptr) = some no
  last : (lastRule = 0 ∧ ∀ stop r, stop ≤ ptr → ¬ Matches file states rule lineStart start stop r) ∨
    (Matches file states rule lineStart start lastPtr lastRule ∧ lastPtr ≤ ptr ∧
      ∀ stop r, Matches file states rule lineStart start stop r → stop ≤ ptr → stop ≤ lastPtr)

variable {file states rule lineStart} {start ptr no lastPtr : Nat} {lastRule : Int}

theorem Underway.begin (inside : start ≤ file.length) (lastPtr : Nat) :
    Underway file states rule lineStart start start 0 0 lastPtr where
  le := le_refl _
  inside := inside
  reached := by
    rw [bytes_self]
    rfl
  last := .inl ⟨rfl, fun stop r le isMatch => absurd isMatch.lt (by omega)⟩

theorem Underway.reached_succ
    (underway : Underway file states rule lineStart start ptr no lastRule lastPtr)
    (lt : ptr < file.length) : runFrom states 0 (bytes file start (ptr + 1)) =
      (stateAt states no).next (file.getD ptr 0) := by
  rw [bytes_split file underway.le (Nat.le_succ ptr), bytes_one file lt, runFrom_append,
    underway.reached]
  change ((stateAt states no).next _ >>= some) = _
  cases (stateAt states no).next (file.getD ptr 0) <;> rfl

/-- A byte with a transition: the match is longer now, or as it was. -/
theorem Underway.step (underway : Underway file states rule lineStart start ptr no lastRule lastPtr)
    (lt : ptr < file.length) {toNo : Nat}
      (next : (stateAt states no).next (file.getD ptr 0) = some toNo)
    {lastRule' : Int} {lastPtr' : Nat}
    (last : (rule (stateAt states toNo) (lineStart start (ptr + 1)) ≠ 0 ∧
        lastRule' = rule (stateAt states toNo) (lineStart start (ptr + 1)) ∧ lastPtr' = ptr + 1) ∨
      (rule (stateAt states toNo) (lineStart start (ptr + 1)) = 0 ∧ lastRule' = lastRule ∧
        lastPtr' = lastPtr)) :
    Underway file states rule lineStart start (ptr + 1) toNo lastRule' lastPtr' := by
  have reached := (underway.reached_succ lt).trans next
  have before := underway.le
  have here {r : Int} (isMatch : Matches file states rule lineStart start (ptr + 1) r) :
      rule (stateAt states toNo) (lineStart start (ptr + 1)) = r := by
    obtain ⟨no', run, rule_eq⟩ := isMatch.accepted
    cases reached.symm.trans run
    exact rule_eq
  refine ⟨by omega, by omega, reached, ?_⟩
  rcases last with ⟨ne, rfl, rfl⟩ | ⟨zero, rfl, rfl⟩
  · exact .inr ⟨⟨by omega, by omega, ⟨toNo, reached, rfl⟩, ne⟩, le_refl _, fun stop r _ le => le⟩
  · have none {r : Int} : ¬ Matches file states rule lineStart start (ptr + 1) r := fun isMatch =>
      isMatch.ne ((here isMatch).symm.trans zero)
    rcases underway.last with ⟨lastRule_eq, fails⟩ | ⟨isMatch, le, longest⟩
    · refine .inl ⟨lastRule_eq, fun stop r le isMatch => ?_⟩
      rcases Nat.le_succ_iff.mp le with le | rfl
      · exact fails stop r le isMatch
      · exact none isMatch
    · refine .inr ⟨isMatch, by omega, fun stop r isMatch le => ?_⟩
      rcases Nat.le_succ_iff.mp le with le | rfl
      · exact longest stop r isMatch le
      · exact absurd isMatch none

/-- An attempt that cannot go on has the longest match, or none. -/
theorem Underway.stop (underway : Underway file states rule lineStart start ptr no lastRule lastPtr)
    (stuck : ptr < file.length → (stateAt states no).next (file.getD ptr 0) = none) :
    (lastRule = 0 ∧ Fails file states rule lineStart start) ∨
      (lastRule ≠ 0 ∧ Longest file states rule lineStart start lastPtr lastRule) := by
  have bound {stop : Nat} {r : Int} (isMatch : Matches file states rule lineStart start stop r) :
      stop ≤ ptr := by
    by_contra beyond
    have lt : ptr < file.length := by
      have := isMatch.le
      omega
    obtain ⟨no', run, -⟩ := isMatch.accepted
    have le := underway.le
    rw [bytes_split file (by omega : start ≤ ptr + 1) (by omega), runFrom_append,
      underway.reached_succ lt, stuck lt] at run
    cases run
  rcases underway.last with ⟨zero, fails⟩ | ⟨isMatch, -, longest⟩
  · exact .inl ⟨zero, fun stop r isMatch => fails stop r (bound isMatch) isMatch⟩
  · exact .inr ⟨isMatch.ne, isMatch, fun stop r other => longest stop r other (bound other)⟩

end Zebra.Regx
