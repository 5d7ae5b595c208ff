import Zebra.Rset.Rset

/-!
# The multi-and

`rsmultiandor.c`, the half of `rset_create_and`: an array of children with one key of lookahead
each.  Children are forwarded until all lookahead keys are of one record; then all are tails, and
the least key of a tail is given until no tail has a key of that record.
-/

namespace Zebra.Rset

/-- `struct heap_item`, with the item's entry of `tailbits`. -/
structure HeapItem (σ Key Term : Type) where
  fd : Rsfd σ Key
  buf : Key
  term : Term
  tailbit : Bool

/-- `struct rfd_private` of a multi-and. -/
structure AndRfd (σ Key Term : Type) where
  items : List (HeapItem σ Key Term)
  eof : Bool
  tailcount : Nat
  segment : Int
  skip : Bool

variable {σ Key Term : Type} (kc : KeyControl Key) (c : RsetControl σ Key Term)

/-- The loop of `r_open_andor` that opens the children of an 'and' and reads a key of each.  A child
that gives none leaves its buffer as it was allocated, `default`. -/
def openItems [Inhabited Key] [Inhabited Term] (fuel : Nat) :
    List (RSet σ) → Option (List (HeapItem σ Key Term) × Bool)
  | [] => some ([], false)
  | child :: children => do
      let (item, fd) ← rsetDefaultRead kc c fuel (rsetOpen child)
      let (items, eof) ← openItems fuel children
      match item with
      | none => some ({ fd, buf := default, term := default, tailbit := false } :: items, true)
      | some (buf, term) => some ({ fd, buf, term, tailbit := false } :: items, eof)

/-- `r_open_and`; `order` is `qsort` with `compare_ands`, which goes by what the children estimate
of their lengths. -/
def rOpenAnd [Inhabited Key] [Inhabited Term]
    (order : List (HeapItem σ Key Term) → List (HeapItem σ Key Term)) (fuel : Nat)
    (children : List (RSet σ)) : Option (AndRfd σ Key Term) := do
  let (items, eof) ← openItems kc c fuel children
  some { items := order items, eof, tailcount := 0, segment := 0, skip := false }

/-- A tail in the loop of `r_read_and`: it becomes the lowest one if it is below that. -/
def lower (i : Nat) (item : HeapItem σ Key Term) (lowest : Option (Nat × HeapItem σ Key Term)) :
    Option (Nat × HeapItem σ Key Term) :=
  let cmp := match lowest with
    | some low => kc.cmp item.buf low.2.buf
    | none => -1
  if cmp < 0 then some (i, item) else lowest

/-- The loop of `r_read_and` over the tails: the place of the lowest and the item there. -/
def mintail : List (HeapItem σ Key Term) → Nat → Option (Nat × HeapItem σ Key Term) →
    Option (Nat × HeapItem σ Key Term)
  | [], _, lowest => lowest
  | item :: items, i, lowest =>
    mintail items (i + 1) (if item.tailbit then lower kc i item lowest else lowest)

/-- What the same loop does with segments, if they are enabled. -/
def checkSegments (p : AndRfd σ Key Term) : AndRfd σ Key Term :=
  match kc.getSegment with
  | none => p
  | some getSegment =>
    p.items.foldl
      (fun p item =>
        if item.tailbit then
          let itemSegment := getSegment item.buf
          let p := if p.segment = 0 ∧ itemSegment ≠ 0 then { p with segment := itemSegment } else p
          if p.segment ≠ 0 ∧ itemSegment ≠ 0 ∧ p.segment ≠ itemSegment then { p with skip := true }
          else p
        else p)
      p

/-- The item after its key was given: it stays a tail if the next key is of the same record. -/
def readTail (fuel : Nat) (p : AndRfd σ Key Term) (place : Nat) (low : HeapItem σ Key Term) :
    Option (AndRfd σ Key Term) := do
  let (item, fd) ← rsetDefaultRead kc c fuel low.fd
  match item with
  | none =>
    -- game over, once tails have been returned
    some { p with
      items := p.items.set place { low with fd, tailbit := false }
      eof := true
      tailcount := p.tailcount - 1 }
  | some (buf, term) =>
    if kc.cmp buf low.buf ≥ kc.scope then
      some { p with
        items := p.items.set place { fd, buf, term, tailbit := false }
        tailcount := p.tailcount - 1 }
    else some { p with items := p.items.set place { fd, buf, term, tailbit := low.tailbit } }

/-- The loop `while (i < ct->no_children)` of `r_read_and`: children are forwarded until all are
within the scope of `items[0]`; `false` if one comes to its end. -/
def align : Nat → List (HeapItem σ Key Term) → Nat → Option (Bool × List (HeapItem σ Key Term))
  | 0, _, _ => none
  | fuel + 1, items, i =>
    match items[0]?, items[i]? with
    | some first, some item =>
      let cmp := kc.cmp first.buf item.buf
      if cmp ≤ -kc.scope then do
        let (key, fd) ← rsetDefaultForward kc c fuel first.fd item.buf
        match key with
        | none => some (false, items.set 0 { first with fd })
        | some (buf, term) => align fuel (items.set 0 { first with fd, buf, term }) 0
      else if cmp ≥ kc.scope then do
        let (key, fd) ← rsetDefaultForward kc c fuel item.fd first.buf
        match key with
        | none => some (false, items.set i { item with fd })
        | some (buf, term) => align fuel (items.set i { item with fd, buf, term }) i
      else align fuel items (i + 1)
    | _, _ => some (true, items)

def rReadAnd : Nat → AndRfd σ Key Term → Option (Option (Key × Term) × AndRfd σ Key Term)
  | 0, _ => none
  | fuel + 1, p =>
    if p.tailcount ≠ 0 then
      match mintail kc p.items 0 none with
      | none => none
      | some (place, low) => do
          let p ← readTail kc c fuel (checkSegments kc p) place low
          if p.skip then rReadAnd fuel p else some (some (low.buf, low.term), p)
    else if p.eof then some (none, p)
    else do
      let (found, items) ← align kc c fuel p.items 1
      if found then
        rReadAnd fuel { p with
          items := items.map fun item => { item with tailbit := true }
          tailcount := items.length
          segment := 0
          skip := false }
      else some (none, { p with items, eof := true })

/-- The loop of `r_forward_and`: the items behind `untilbuf` are forwarded.  It tells whether one of
them has come to its end, in which case the loop is left, and whether any was behind. -/
def forwardItems (fuel : Nat) (untilbuf : Key) :
    List (HeapItem σ Key Term) → Option (Bool × Bool × List (HeapItem σ Key Term))
  | [] => some (false, false, [])
  | item :: items =>
    if kc.cmp item.buf untilbuf ≤ -kc.scope then do
      let (key, fd) ← rsetDefaultForward kc c fuel item.fd untilbuf
      match key with
      | none => some (true, true, { item with fd } :: items)
      | some (buf, term) => do
          let (ended, _, items) ← forwardItems fuel untilbuf items
          some (ended, true, { item with fd, buf, term } :: items)
    else do
      let (ended, killtail, items) ← forwardItems fuel untilbuf items
      some (ended, killtail, item :: items)

def rForwardAnd (fuel : Nat) (p : AndRfd σ Key Term) (untilbuf : Key) :
    Option (Option (Key × Term) × AndRfd σ Key Term) := do
  let (ended, killtail, items) ← forwardItems kc c fuel untilbuf p.items
  if ended then some (none, { p with items, eof := true, tailcount := 0 })
  else if killtail then
    rReadAnd kc c fuel { p with
      items := items.map fun item => { item with tailbit := false }
      tailcount := 0 }
  else rReadAnd kc c fuel { p with items }

/-- `control_and`: a multi-and is a type of result set itself. -/
def controlAnd : RsetControl (AndRfd σ Key Term) Key Term where
  fRead fuel p := rReadAnd kc c fuel p
  fForward := some fun fuel p untilbuf => rForwardAnd kc c fuel p untilbuf

end Zebra.Rset
