import Zebra.Update.MatchSpec

/-!
# The items of a match specification

What a specification says, apart from how it is scanned: its items one after another, and the text
that each stands for.  Scanning it comes to the same as going through its items.
-/

namespace Zebra.Update

open List Option

namespace MatchSpec

inductive Item where
  | attr (name : List Byte)
  | var (name : List Byte)
  | literal (text : List Byte) (closed : Bool)
  /-- What begins like no item, or an attribute without the parenthesis behind its name. -/
  | wrong
  /-- An attribute that ends with the specification where blanks may follow. -/
  | cutOff
  deriving DecidableEq

/-- The name of an attribute goes up to a comma, a parenthesis or a blank. -/
def endsFirst (c : Byte) : Bool := c = 44 || c = 41 || isBlank c

/-- Behind a comma the name goes up to a parenthesis or a blank. -/
def endsSecond (c : Byte) : Bool := c = 41 || isBlank c

def upTo (ends : Byte → Bool) (s : List Byte) : List Byte := s.takeWhile fun c => !ends c

def fromOn (ends : Byte → Bool) (s : List Byte) : List Byte := s.dropWhile fun c => !ends c

/-- An attribute with a name, if a parenthesis follows. -/
def closedItem (name : List Byte) : List Byte → Item × List Byte
  | [] => (.wrong, [])
  | c :: s => if c = 41 then (.attr name, s) else (.wrong, [])

def attributeItem (s : List Byte) : Item × List Byte :=
  let s := s.dropWhile isBlank
  let name := upTo endsFirst s
  match (fromOn endsFirst s).dropWhile isBlank with
  | [] => (.cutOff, [])
  | c :: s =>
    if c = 44 then
      let s := s.dropWhile isBlank
      if s = [] then (.cutOff, []) else closedItem (upTo endsSecond s) (fromOn endsSecond s)
    else closedItem name (c :: s)

/-- The item that begins with a character, and the rest. -/
def item (c : Byte) (s : List Byte) : Item × List Byte :=
  if c = 40 then attributeItem s
  else if c = 36 then (.var (upTo isBlank s), fromOn isBlank s)
  else if c = 34 ∨ c = 39 then
    (.literal (upTo (· = c) s) (decide (fromOn (· = c) s ≠ [])), (fromOn (· = c) s).tail)
  else (.wrong, [])

theorem closedItem_length (name s : List Byte) : (closedItem name s).2.length ≤ s.length := by
  unfold closedItem
  split
  · exact le_rfl
  · split
    · exact Nat.le_succ _
    · exact Nat.zero_le _

theorem item_length (c : Byte) (s : List Byte) : (item c s).2.length ≤ s.length := by
  have down (s : List Byte) : (s.dropWhile isBlank).length ≤ s.length :=
    length_dropWhile_le isBlank s
  have on (ends : Byte → Bool) (s : List Byte) : (fromOn ends s).length ≤ s.length :=
    length_dropWhile_le _ s
  unfold item
  split
  · unfold attributeItem
    have first := (down (fromOn endsFirst (s.dropWhile isBlank))).trans
      ((on endsFirst (s.dropWhile isBlank)).trans (down s))
    dsimp only
    split
    · exact Nat.zero_le _
    · rename_i c rest here
      rw [here, length_cons] at first
      split
      · split
        · exact Nat.zero_le _
        · exact (closedItem_length _ _).trans
            ((on endsSecond _).trans ((down rest).trans (by omega)))
      · exact (closedItem_length _ (c :: rest)).trans first
  · split
    · exact on isBlank s
    · split
      · rw [length_tail]
        exact (Nat.sub_le _ 1).trans (on _ s)
      · exact Nat.zero_le _

theorem item_decreasing {c : Byte} {spec s : List Byte} (blanks : spec.dropWhile isBlank = c :: s) :
    (item c s).2.length < spec.length := by
  have shorter := length_dropWhile_le isBlank spec
  have rest := item_length c s
  rw [blanks, length_cons] at shorter
  omega

def items (spec : List Byte) : List Item :=
  match _blanks : spec.dropWhile isBlank with
  | [] => []
  | c :: s => (item c s).1 :: items (item c s).2
termination_by spec.length
decreasing_by exact item_decreasing _blanks

variable {env : Env} {reckeys : List RecKey}

def attributeWords (env : Env) (reckeys : List RecKey) (name : List Byte) : List (List Byte) :=
  (searchRecordKey env reckeys (name.take (tokenSize - 1))).filterMap id

def Item.value (env : Env) (reckeys : List RecKey) : Item → Option (List Byte)
  | .attr name =>
    if attributeWords env reckeys name = [] then none
    else some (32 :: (attributeWords env reckeys name).flatten)
  | .var name => specSrc env (name.take (tokenSize - 1))
  | .literal text _ => some text
  | .wrong => none
  | .cutOff => none

/-- The text that is put together of an item, with the byte behind it. -/
def Item.text (env : Env) (reckeys : List RecKey) (i : Item) : List Byte :=
  (i.value env reckeys).getD [] ++ [1]

/-- The text is put behind what is in the buffer, if there is room for it. -/
def putText (dst text : List Byte) : Except Stop (List Byte) :=
  if dst.length + text.length ≤ dstSize then .ok (dst ++ text) else .error .overflow

def evalItem (env : Env) (reckeys : List RecKey) (dst : List Byte) (i : Item) :
    Except Stop (List Byte) :=
  match i with
  | .wrong => .error .null
  | .cutOff => .error .overread
  | .attr name =>
    if attributeWords env reckeys name = [] then .error .null else putText dst (i.text env reckeys)
  | .var _ => putText dst (i.text env reckeys)
  | .literal text _ =>
    if tokenSize ≤ text.length then .error .forever else putText dst (i.text env reckeys)

theorem text_attribute {name : List Byte} (some : attributeWords env reckeys name ≠ []) :
    (Item.attr name).text env reckeys =
      32 :: (attributeWords env reckeys name).flatten ++ [1] := by
  rw [Item.text, Item.value, if_neg some, getD_some]

theorem putString_byte (dst src : List Byte) :
    (putString dst src >>= fun dst => putByte dst 1) = putText dst (src ++ [1]) := by
  rw [putText, putString, length_append, length_singleton]
  by_cases room : dst.length + src.length < dstSize
  · rw [if_pos room, if_pos (by omega)]
    change putByte (dst ++ src) 1 = _
    rw [putByte, if_pos (by rw [length_append]; exact room), append_assoc]
  · rw [if_neg room, if_neg (by omega)]
    rfl

theorem putWords_more (dst : List Byte) (ws : List (Option (List Byte)))
    (within : dst.length < dstSize) :
    putWords false dst ws =
      if dst.length + (ws.filterMap id).flatten.length < dstSize then
        .ok (false, dst ++ (ws.filterMap id).flatten)
      else .error .overflow := by
  induction ws generalizing dst with
  | nil =>
    rw [filterMap_nil, flatten_nil, append_nil, length_nil, Nat.add_zero,
      if_pos within]
    rfl
  | cons w ws ih =>
    cases w with
    | none => exact ih dst within
    | some w =>
      have values : (some w :: ws).filterMap id = w :: ws.filterMap id := rfl
      rw [values, flatten_cons, length_append]
      change (putString dst w >>= fun dst => putWords false dst ws) = _
      by_cases room : dst.length + w.length < dstSize
      · have more : (dst ++ w).length < dstSize := by
          rw [length_append]
          exact room
        rw [putString, if_pos room]
        change putWords false (dst ++ w) ws = _
        rw [ih (dst ++ w) more, length_append, append_assoc, Nat.add_assoc]
      · rw [putString, if_neg room, if_neg (by omega)]
        rfl

theorem putWords_eq (dst : List Byte) (ws : List (Option (List Byte))) :
    putWords true dst ws =
      if ws.filterMap id = [] then .ok (true, dst)
      else if dst.length + 1 + (ws.filterMap id).flatten.length < dstSize then
        .ok (false, dst ++ (32 :: (ws.filterMap id).flatten))
      else .error .overflow := by
  induction ws with
  | nil => rfl
  | cons w ws ih =>
    cases w with
    | none => exact ih
    | some w =>
      have values : (some w :: ws).filterMap id = w :: ws.filterMap id := rfl
      rw [values, if_neg (cons_ne_nil _ _), flatten_cons, length_append]
      change (putByte dst 32 >>= fun dst => putString dst w >>= fun dst =>
        putWords false dst ws) = _
      by_cases space : dst.length < dstSize
      · rw [putByte, if_pos space]
        change (putString (dst ++ [32]) w >>= fun dst => putWords false dst ws) = _
        by_cases room : dst.length + 1 + w.length < dstSize
        · have within : (dst ++ [32]).length + w.length < dstSize := by
            rw [length_append]
            exact room
          rw [putString, if_pos within]
          change putWords false (dst ++ [32] ++ w) ws = _
          rw [putWords_more _ ws (by rw [length_append]; exact within),
            length_append, length_append, length_singleton, append_assoc,
            append_assoc, Nat.add_assoc (dst.length + 1)]
          rfl
        · have full : ¬ (dst ++ [32]).length + w.length < dstSize := by
            rw [length_append]
            exact room
          rw [putString, if_neg full, if_neg (by omega)]
          rfl
      · rw [putByte, if_neg space, if_neg (by omega)]
        rfl

/-- The byte behind a component, with the rest of the specification. -/
def behind (out : List Byte × List Byte) : Except Stop (List Byte × List Byte) :=
  (putByte out.2 1).map fun dst => (out.1, dst)

theorem putString_behind (dst src rest : List Byte) :
    (putString dst src >>= fun dst => behind (rest, dst)) =
      (putText dst (src ++ [1])).map fun dst => (rest, dst) := by
  rw [← putString_byte]
  cases putString dst src with
  | error stop => rfl
  | ok dst' => rfl

theorem closeAttribute_item (dst name s : List Byte) :
    (closeAttribute env reckeys dst (name.take (tokenSize - 1), s) >>= behind) =
      (evalItem env reckeys dst (closedItem name s).1).map fun dst => ((closedItem name s).2,
        dst) := by
  unfold closeAttribute closedItem
  cases s with
  | nil => rfl
  | cons c s =>
    dsimp only
    by_cases close : c = 41
    · rw [if_pos close, if_pos close, putWords_eq, evalItem]
      change _ = (if attributeWords env reckeys name = [] then Except.error Stop.null else
        putText dst ((Item.attr name).text env reckeys)).map fun dst => (s, dst)
      have words : (searchRecordKey env reckeys (name.take (tokenSize - 1))).filterMap id =
          attributeWords env reckeys name := rfl
      rw [words]
      by_cases none : attributeWords env reckeys name = []
      · rw [if_pos none, if_pos none]
        rfl
      · rw [if_neg none, if_neg none, text_attribute none, putText, length_append,
          length_cons, length_singleton]
        by_cases room : dst.length + 1 + (attributeWords env reckeys name).flatten.length < dstSize
        · have within : (dst ++ 32 :: (attributeWords env reckeys name).flatten).length <
              dstSize := by
            rw [length_append, length_cons]
            omega
          rw [if_pos room, if_pos (by omega)]
          change behind (s, dst ++ _) = _
          rw [behind, putByte, if_pos within, append_assoc]
        · rw [if_neg room, if_neg (by omega)]
          rfl
    · rw [if_neg close, if_neg close]
      rfl

theorem attribute_item (s dst : List Byte) :
    (attributeComponent env reckeys s dst >>= behind) =
      (evalItem env reckeys dst (attributeItem s).1).map fun dst => ((attributeItem s).2, dst) := by
  rw [attributeComponent, attributeItem, skipBlank_eq]
  dsimp only
  by_cases ended : s.dropWhile isBlank = []
  · -- the blanks behind the parenthesis go up to the end
    rw [if_pos ended, ended]
    rfl
  · rw [if_neg ended]
    change ((skipBlank (fromOn endsFirst (s.dropWhile isBlank)) >>= fun s₁ =>
      attName ((upTo endsFirst (s.dropWhile isBlank)).take (tokenSize - 1)) s₁ >>= fun attname =>
        closeAttribute env reckeys dst attname) >>= behind) = _
    rw [skipBlank_eq]
    cases here : (fromOn endsFirst (s.dropWhile isBlank)).dropWhile isBlank with
    | nil =>
      rw [if_pos rfl]
      rfl
    | cons c rest =>
      rw [if_neg (cons_ne_nil c rest)]
      change ((attName ((upTo endsFirst (s.dropWhile isBlank)).take (tokenSize - 1)) (c :: rest)
        >>= fun attname => closeAttribute env reckeys dst attname) >>= behind) = _
      rw [attName]
      dsimp only
      by_cases comma : c = 44
      · rw [if_pos comma, if_pos comma, skipBlank_eq]
        by_cases cut : rest.dropWhile isBlank = []
        · rw [if_pos cut, if_pos cut]
          rfl
        · rw [if_neg cut, if_neg cut]
          exact closeAttribute_item dst (upTo endsSecond (rest.dropWhile isBlank)) _
      · rw [if_neg comma, if_neg comma]
        exact closeAttribute_item dst (upTo endsFirst (s.dropWhile isBlank)) (c :: rest)

theorem variable_item (s dst : List Byte) :
    (variableComponent env s dst >>= behind) =
      (evalItem env reckeys dst (.var (upTo isBlank s))).map fun dst =>
        (fromOn isBlank s, dst) := by
  unfold evalItem Item.text Item.value
  change (((specSrc env ((upTo isBlank s).take (tokenSize - 1))).elim (.ok dst) (putString dst)
    >>= fun dst => Except.ok (fromOn isBlank s, dst)) >>= behind) = _
  dsimp only
  cases specSrc env ((upTo isBlank s).take (tokenSize - 1)) with
  | none =>
    change behind (fromOn isBlank s, dst) = _
    rw [behind, putByte, putText, getD_none, nil_append, length_singleton]
    rfl
  | some src =>
    rw [elim_some, getD_some, ← putString_behind]
    cases putString dst src with
    | error stop => rfl
    | ok dst' => rfl

theorem upTo_stop (c : Byte) (s : List Byte) : s.takeWhile (· ≠ c) = upTo (· = c) s := by
  unfold upTo
  simp only [ne_eq, decide_not]

theorem fromOn_stop (c : Byte) (s : List Byte) : s.dropWhile (· ≠ c) = fromOn (· = c) s := by
  unfold fromOn
  simp only [ne_eq, decide_not]

theorem literal_item (c : Byte) (s dst : List Byte) (closed : Bool) :
    (literalComponent c s dst >>= behind) =
      (evalItem env reckeys dst (.literal (upTo (· = c) s) closed)).map fun dst =>
        ((fromOn (· = c) s).tail, dst) := by
  rw [literalComponent, readLiteral_eq c s [] (by decide), upTo_stop, fromOn_stop, length_nil,
    Nat.zero_add, nil_append]
  unfold evalItem Item.text Item.value
  dsimp only
  by_cases long : tokenSize ≤ (upTo (· = c) s).length
  · rw [if_neg (Nat.not_lt_of_le long), if_pos long]
    rfl
  · rw [if_pos (Nat.lt_of_not_le long), if_neg long, getD_some, ← putString_behind]
    change ((putString dst (upTo (· = c) s) >>= fun dst =>
      Except.ok ((fromOn (· = c) s).tail, dst)) >>= behind) = _
    cases putString dst (upTo (· = c) s) with
    | error stop => rfl
    | ok dst' => rfl

theorem component_item (env : Env) (reckeys : List RecKey) (c : Byte) (s dst : List Byte) :
    (component env reckeys c s dst >>= behind) =
      (evalItem env reckeys dst (item c s).1).map fun dst => ((item c s).2, dst) := by
  unfold component item
  split
  · exact attribute_item s dst
  · split
    · exact variable_item s dst
    · split
      · exact literal_item c s dst _
      · rfl

theorem items_nil {spec : List Byte} (blanks : spec.dropWhile isBlank = []) : items spec = [] := by
  rw [items]
  split
  · rfl
  · rename_i c s here
    rw [blanks] at here
    cases here

theorem items_cons {c : Byte} {spec s : List Byte} (blanks : spec.dropWhile isBlank = c :: s) :
    items spec = (item c s).1 :: items (item c s).2 := by
  rw [items]
  split
  · rename_i here
    rw [blanks] at here
    cases here
  · rename_i c' s' here
    rw [blanks] at here
    cases here
    rfl

/-- Scanning a specification comes to going through its items. -/
theorem matchLoop_items (spec dst : List Byte) :
    matchLoop env reckeys spec dst = (items spec).foldlM (evalItem env reckeys) dst := by
  induction length : spec.length using Nat.strong_induction_on generalizing spec dst with
  | _ length' ih =>
    subst length
    rw [matchLoop]
    split
    · rename_i blanks
      rw [items_nil blanks]
      rfl
    · rename_i c s blanks
      have step := component_item env reckeys c s dst
      rw [items_cons blanks, foldlM_cons]
      split
      · rename_i stop failed
        rw [failed] at step
        cases evaluated : evalItem env reckeys dst (item c s).1 with
        | error stop' =>
          rw [evaluated] at step
          cases step
          rfl
        | ok dst' =>
          rw [evaluated] at step
          cases step
      · rename_i out done
        rw [done] at step
        change behind out = _ at step
        rw [behind] at step
        cases put : putByte out.2 1 with
        | error stop =>
          rw [put] at step
          cases evaluated : evalItem env reckeys dst (item c s).1 with
          | error stop' =>
            rw [evaluated] at step
            cases step
            rfl
          | ok dst' =>
            rw [evaluated] at step
            cases step
        | ok dst' =>
          rw [put] at step
          cases evaluated : evalItem env reckeys dst (item c s).1 with
          | error stop' =>
            rw [evaluated] at step
            cases step
          | ok dst'' =>
            rw [evaluated] at step
            have same := Except.ok.inj step
            obtain ⟨rest, rfl⟩ := Prod.mk.inj same
            rw [← rest]
            exact ih out.1.length (component_decreasing blanks done) out.1 dst' rfl

end MatchSpec

end Zebra.Update
