import Zebra.Isamb.Merge

/-!
# Reading a list

`isamb_pp_open_x`, `isamb_pp_forward` and `isamb_pp_read` of `isamb.c`.  A cursor keeps the blocks
on the way from the root to a leaf; each block's `offset` is behind what has been read of it.
Closing such a block changes nothing, since it is neither dirty nor deleted.
-/

namespace Zebra

section

variable {Code : Type}

/-- `p->bytes + p->offset`: what has not been read of a block. -/
def Block.src (p : Block Code) : List Byte := p.bytes.drop p.offset

/-- Set `p->offset` to where `src` starts. -/
def Block.seek (p : Block Code) (src : List Byte) : Block Code :=
  { p with offset := p.bytes.length - src.length }

end

namespace Isamb

variable {Item Code : Type}

/-- `struct ISAMB_PP_s` -/
structure PP (Code : Type) where
  isamb : Isamb
  /-- `block[level]` up to `block[0]`, the root. -/
  block : List (Block Code)
  scope : Int

variable (m : IsamcM Item Code)

/-- The test on an item; everything passes when there is no `untilb`. -/
def passes (scope : Int) (untilb : Option Item) (item : Item) : Bool :=
  match untilb with
  | none => true
  | some untilb => m.compareItem untilb item < scope

/-- Skip children as long as the separator behind them does not pass; `pos` is the pointer read
last and `src` what follows it. -/
def skipKids (scope : Int) (untilb : Option Item) :
    Nat → Nat → List Byte → Option (Nat × List Byte)
  | 0, _, _ => none
  | fuel + 1, pos, src =>
    if untilb.isNone ∨ src = [] then some (pos, src)
    else do
      let (item, _, rest) ← m.decode m.reset src
      if passes m scope untilb item then some (pos, src)
      else do
        let (pos, rest) ← decodePtr rest
        skipKids scope untilb fuel pos rest

/-- Open the blocks from `pos` down to a leaf. -/
def enter (scope : Int) (untilb : Option Item) :
    Nat → Isamb → Nat → List (Block Code) → Except Fault (List (Block Code) × Isamb)
  | 0, _, _, _ => .error .assertion
  | fuel + 1, b, pos, stack => do
      let (p, b) ← openBlock m b pos
      if p.leaf then .ok (p :: stack, b)
      else
        let kid := do
          let (pos, src) ← decodePtr p.src
          skipKids m scope untilb p.bytes.length pos src
        match kid with
        | none => .error .assertion
        | some (pos, src) => enter scope untilb fuel b pos (p.seek src :: stack)

def ppOpenX (b : Isamb) (pos : Nat) (scope : Int) : Except Fault (PP Code) := do
  let (block, isamb) ← enter m scope none b.maxLevels b pos []
  .ok { isamb, block, scope }

/-- Leave blocks that are read to their end, but never the root. -/
def climb : List (Block Code) → List (Block Code)
  | p :: above :: stack =>
    if p.offset = p.bytes.length then climb (above :: stack) else p :: above :: stack
  | stack => stack

/-- The loop over the items of a leaf: the first one that passes, or none before its end. -/
def forwardLeaf (scope : Int) (untilb : Option Item) :
    Nat → Code → List Byte → Option (Option Item × Code × List Byte)
  | 0, _, _ => none
  | fuel + 1, code, src => do
      let (item, code, src) ← m.decode code src
      if passes m scope untilb item then some (some item, code, src)
      else if src = [] then some (none, code, src)
      else forwardLeaf scope untilb fuel code src

/-- From a block read to its end to the next leaf, if there is one. -/
def nextLeaf (untilb : Option Item) (pp : PP Code) : Except Fault (Bool × PP Code) :=
  match climb pp.block with
  | [] => .error .assertion
  | p :: stack =>
    let pp := { pp with block := p :: stack }
    if p.offset = p.bytes.length then .ok (false, pp)
    else if p.leaf then .error .assertion
    else
      let kid := do
        let (_, pos, src) ← decodeEntry m p.src
        skipKids m pp.scope untilb p.bytes.length pos src
      match kid with
      | none => .error .assertion
      | some (pos, src) => do
          let (block, isamb) ←
            enter m pp.scope untilb pp.isamb.maxLevels pp.isamb pos (p.seek src :: stack)
          .ok (true, { pp with isamb, block })

/-- `isamb_pp_forward` from `again` on. -/
def forwardFrom (untilb : Option Item) : Nat → PP Code → Except Fault (Option Item × PP Code)
  | 0, _ => .error .assertion
  | fuel + 1, pp =>
    match pp.block with
    | [] => .ok (none, pp)
    | p :: stack =>
      if p.offset = p.bytes.length then do
        let (more, pp) ← nextLeaf m untilb pp
        if more then forwardFrom untilb fuel pp else .ok (none, pp)
      else if p.leaf then
        match forwardLeaf m pp.scope untilb p.bytes.length p.decodeClientData p.src with
        | none => .error .assertion
        | some (item, code, src) =>
          let pp := { pp with block := { p.seek src with decodeClientData := code } :: stack }
          match item with
          | some item => .ok (some item, pp)
          | none => forwardFrom untilb fuel pp
      else .error .assertion

/-- `isamb_pp_forward`; every round but one in two enters a leaf. -/
def ppForward (pp : PP Code) (untilb : Option Item) : Except Fault (Option Item × PP Code) :=
  forwardFrom m untilb (2 * pp.isamb.maxLevels + 2) pp

def ppRead (pp : PP Code) : Except Fault (Option Item × PP Code) := ppForward m pp none

/-- Several calls on one cursor: what each of them returned. -/
def ppCalls : PP Code → List (Option Item) → Except Fault (List (Option Item) × PP Code)
  | pp, [] => .ok ([], pp)
  | pp, untilb :: calls => do
      let (item, pp) ← ppForward m pp untilb
      let (items, pp) ← ppCalls pp calls
      .ok (item :: items, pp)

/-- `while (isamb_pp_read(pp, buf))`, at most `fuel` times. -/
def ppReadAll : Nat → PP Code → Except Fault (List Item)
  | 0, _ => .error .assertion
  | fuel + 1, pp => do
      let (item, pp) ← ppRead m pp
      match item with
      | none => .ok []
      | some item => do
          let items ← ppReadAll fuel pp
          .ok (item :: items)

/-- What a list holds: a new cursor reads these items until there are no more.  An empty list has no
cursor. -/
def Reads (scope : Int) (b : Isamb) (pos : Nat) (items : List Item) : Prop :=
  (pos = 0 ∧ items = []) ∨
    ∃ pp fuel, pos ≠ 0 ∧ ppOpenX m b pos scope = .ok pp ∧ ppReadAll m fuel pp = .ok items

end Isamb

end Zebra
