import Zebra.Dfa.Positions

/-!
# Building the states

`states.c` and `mk_dfa_tran`: a state is a set of positions, those whose characters may come next.
The states still to be worked on form a stack; for each the characters are cut into ranges on which
the same positions take the character, and each range leads to the positions that may follow these.
-/

namespace Zebra.Dfa

structure DfaTran where
  ch0 : Int
  ch1 : Int
  toNo : Nat
  deriving DecidableEq

/-- `struct DFA_state`; its number is its place among the states. -/
structure DfaState where
  set : DFASet
  trans : List DfaTran
  ruleNo : Int
  ruleNno : Int
  deriving DecidableEq

/-- `struct DFA_states`: the states by their numbers, and the chain `unmarked`. -/
structure DfaStates where
  states : List DfaState
  unmarked : List Nat
  deriving DecidableEq

inductive DfaFault where
  /-- `assert (*s)`: the set of a state is not empty. -/
  | assertion
  /-- A state's number does not fit into a `short`. -/
  | stateNo
  /-- A position would be taken for the code of a node. -/
  | position
  deriving DecidableEq

def shrtMax : Nat := 32767

/-- `CAT`, the least code of an inner node in `pos`. -/
def catCode : Nat := 16000

/-- `add_DFA_state`; looking along the chain of the set's hash value finds the one state with that
set, if there is one. -/
def addDfaState (dfas : DfaStates) (s : DFASet) : Except DfaFault (Nat × DfaStates) :=
  if s = [] then .error .assertion
  else
    match dfas.states.findIdx? fun si => si.set = s with
    | some no => .ok (no, dfas)
    | none =>
      let no := dfas.states.length
      if no ≤ shrtMax then
        .ok (no, {
          states := dfas.states ++ [{ set := s, trans := [], ruleNo := 0, ruleNno := 0 }]
          unmarked := no :: dfas.unmarked })
      else .error .stateNo

/-- The loop of `mk_dfa_tran` over a state's set, as far as rules go: `i` and `j`. -/
def rules (posar : Nat → Int × Int) (set : DFASet) : Int × Int :=
  set.foldl
    (fun ij value =>
      let c := (posar value).1
      if c < 0 then
        (if ij.1 = 0 ∨ c > ij.1 then c else ij.1,
          if ij.2 = 0 ∨ (posar value).2 > ij.2 then (posar value).2 else ij.2)
      else ij)
    (0, 0)

/-- The positions that loop puts into `pos`. -/
def charPositions (posar : Nat → Int × Int) (set : DFASet) : List Nat :=
  set.filter fun value => 0 ≤ (posar value).1 ∧ (posar value).1 ≤ charsetSize

/-- The first inner loop: the first character from `char1` on that a position takes. -/
def findChar0 (posar : Nat → Int × Int) (pos : List Nat) (char1 : Int) : Int :=
  pos.foldl
    (fun char0 i =>
      if (posar i).2 ≥ char1 ∧ (posar i).1 < char0 then
        if (posar i).1 < char1 then char1 else (posar i).1
      else char0)
    (charsetSize + 1)

/-- The second inner loop: how far the range goes, and the positions that follow. -/
def findChar1 (s : Trav) (pos : List Nat) (char0 : Int) : Int × DFASet :=
  pos.foldl
    (fun range i =>
      (if (s.posar i).1 > char0 ∧ (s.posar i).1 ≤ range.1 then (s.posar i).1 - 1  -- forward chunk
        else if (s.posar i).2 ≥ char0 ∧
          (s.posar i).2 < range.1 then (s.posar i).2  -- backward chunk
        else range.1,
        if (s.posar i).2 ≥ char0 ∧ (s.posar i).1 ≤ char0 then unionDFASet range.2 (s.followpos i)
        else range.2))
    (charsetSize, mkDFASet)

/-- The loop of `mk_dfa_tran` over the characters from `char1` on, with the transitions so far. -/
def charLoop (s : Trav) (pos : List Nat) : Nat → Int → DfaStates → List DfaTran →
    Option (Except DfaFault (DfaStates × List DfaTran))
  | 0, _, _, _ => none
  | fuel + 1, char1, dfas, trs =>
    if char1 > charsetSize then some (.ok (dfas, trs))
    else
      let char0 := findChar0 s.posar pos char1
      if char0 > charsetSize then some (.ok (dfas, trs))
      else
        let (char1, tranSet) := findChar1 s pos char0
        if tranSet = [] then charLoop s pos fuel (char1 + 1) dfas trs
        else
          match addDfaState dfas tranSet with
          | .error fault => some (.error fault)
          | .ok (toNo, dfas) =>
            charLoop s pos fuel (char1 + 1) dfas (trs ++ [{ ch0 := char0, ch1 := char1, toNo }])

/-- The loop `while ((dfa_from = get_DFA_state (dfas)))` of `mk_dfa_tran`. -/
def stateLoop (s : Trav) : Nat → DfaStates → Option (Except DfaFault DfaStates)
  | 0, _ => none
  | fuel + 1, dfas =>
    match dfas.unmarked with
    | [] => some (.ok dfas)
    | no :: unmarked =>
      match dfas.states[no]? with
      | none => some (.error .assertion)
      | some dfaFrom => do
          let (i, j) := rules s.posar dfaFrom.set
          let out ← charLoop s (charPositions s.posar dfaFrom.set) fuel 0
            { dfas with unmarked } []
          match out with
          | .error fault => some (.error fault)
          | .ok (dfas, trs) =>
            stateLoop s fuel { dfas with
              states := dfas.states.set no
                { dfaFrom with trans := trs, ruleNo := -i, ruleNno := -j } }

/-- `init_followpos` and `init_pos` -/
def travInit : Trav := { followpos := fun _ => mkDFASet, posar := fun _ => (0, 0) }

/-- `mk_dfas`, which is all of `dfa_mkstate`: the states of the tree `root`, in the order of their
numbers. -/
def dfaMkstate (position : Nat) (root : Tnode) (fuel : Nat) :
    Option (Except DfaFault (List DfaState)) :=
  if position ≥ catCode then some (.error .position)
  else
    let (attr, s) := dfaTrav root travInit
    match addDfaState { states := [], unmarked := [] } attr.firstpos with
    | .error fault => some (.error fault)
    | .ok (_, dfas) => do
        let out ← stateLoop s fuel dfas
        match out with
        | .error fault => some (.error fault)
        | .ok dfas => some (.ok dfas.states)

def DfaState.next (state : DfaState) (c : Int) : Option Nat :=
  (state.trans.find? fun tran => tran.ch0 ≤ c ∧ c ≤ tran.ch1).map (·.toNo)

/-- Run from the state `no`: whether a state with a rule is reached at the end. -/
def acceptsFrom (states : List DfaState) : Nat → List Int → Bool
  | no, [] => (states[no]?).any fun state => state.ruleNo ≠ 0
  | no, c :: w =>
    match (states[no]?).bind (·.next c) with
    | none => false
    | some toNo => acceptsFrom states toNo w

def accepts (states : List DfaState) (w : List Int) : Bool := acceptsFrom states 0 w

end Zebra.Dfa
