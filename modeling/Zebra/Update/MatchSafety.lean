import Mathlib.Data.List.TakeWhile
import Zebra.Update.MatchItems

/-!
# Which specifications are parsed safely

How far a specification is gone through, and when that reads only the specification, writes only the
buffer, ends, and gives no string exactly for what is malformed or has no value.
-/

namespace Zebra.Update

open List

namespace MatchSpec

variable {env : Env} {reckeys : List RecKey}

def Item.malformed : Item → Bool
  | .wrong => true
  | .cutOff => true
  | .literal _ closed => !closed
  | .attr _ => false
  | .var _ => false

def Item.faulty (env : Env) (reckeys : List RecKey) (i : Item) : Bool :=
  i.malformed || (i.value env reckeys).isNone

/-- The specification is parsed safely: neither a read behind the NUL nor an endless loop nor a
write behind the buffer, and NULL exactly if an item is malformed or has no value. -/
structure ParsedSafely (env : Env) (reckeys : List RecKey) (spec : List Byte) : Prop where
  bounded : getMatchFromSpec env reckeys spec ≠ .error .overread
  ends : getMatchFromSpec env reckeys spec ≠ .error .forever
  fits : getMatchFromSpec env reckeys spec ≠ .error .overflow
  null : getMatchFromSpec env reckeys spec = .error .null ↔
    ∃ i ∈ items spec, i.faulty env reckeys = true

def Item.detected (env : Env) (reckeys : List RecKey) : Item → Bool
  | .wrong => true
  | .attr name => attributeWords env reckeys name = []
  | .var _ => false
  | .literal _ _ => false
  | .cutOff => false

/-- The items in front of the first one at which NULL is returned. -/
def reached (env : Env) (reckeys : List RecKey) (is : List Item) : List Item :=
  is.takeWhile fun i => !i.detected env reckeys

def textOf (env : Env) (reckeys : List RecKey) (is : List Item) : List Byte :=
  is.flatMap (Item.text env reckeys)

def Item.long : Item → Bool
  | .literal text _ => tokenSize ≤ text.length
  | .attr _ => false
  | .var _ => false
  | .wrong => false
  | .cutOff => false

/-- The items that are gone through make no trouble. -/
structure Harmless (env : Env) (reckeys : List RecKey) (is : List Item) (room : Nat) : Prop where
  whole : .cutOff ∉ is
  short : ∀ i ∈ is, i.long = false
  fits : (textOf env reckeys is).length ≤ room

structure Parsable (env : Env) (reckeys : List RecKey) (is : List Item) : Prop where
  harmless : Harmless env reckeys (reached env reckeys is) dstSize
  /-- If all items are gone through, there is one, each has a value and is not malformed, and there
  is room for the NUL. -/
  valued : reached env reckeys is = is → is ≠ [] ∧ (∀ i ∈ is, i.faulty env reckeys = false) ∧
    (textOf env reckeys is).length < dstSize

theorem text_pos (env : Env) (reckeys : List RecKey) (i : Item) :
    0 < (i.text env reckeys).length := by
  rw [Item.text, length_append]
  exact Nat.succ_pos _

variable {i : Item}

/-- An item that makes no trouble is put behind the buffer if there is room. -/
theorem evalItem_harmless (dst : List Byte) (passed : i.detected env reckeys = false)
    (whole : i ≠ .cutOff) (short : i.long = false) :
    evalItem env reckeys dst i = putText dst (i.text env reckeys) := by
  cases i with
  | wrong => cases passed
  | cutOff => exact absurd rfl whole
  | attr name => exact if_neg (of_decide_eq_false passed)
  | var name => rfl
  | literal text closed => exact if_neg (of_decide_eq_false short)

theorem evalItem_harmful (env : Env) (reckeys : List RecKey) (dst : List Byte)
    (harmful : i = .cutOff ∨ i.long = true) :
    evalItem env reckeys dst i = .error .overread ∨
      evalItem env reckeys dst i = .error .forever := by
  rcases harmful with rfl | long
  · exact .inl rfl
  · cases i with
    | literal text closed => exact .inr (if_pos (of_decide_eq_true long))
    | wrong => cases long
    | cutOff => cases long
    | attr name => cases long
    | var name => cases long

theorem evalItem_detected (dst : List Byte) (stops : i.detected env reckeys = true) :
    evalItem env reckeys dst i = .error .null := by
  cases i with
  | wrong => rfl
  | cutOff => cases stops
  | attr name => exact if_pos (of_decide_eq_true stops)
  | var name => cases stops
  | literal text closed => cases stops

variable {is : List Item}

theorem reached_cons_detected (stops : i.detected env reckeys = true) :
    reached env reckeys (i :: is) = [] := by
  rw [reached, takeWhile_cons, stops]
  rfl

theorem reached_cons (passed : i.detected env reckeys = false) :
    reached env reckeys (i :: is) = i :: reached env reckeys is := by
  rw [reached, takeWhile_cons, passed]
  rfl

theorem textOf_cons (i : Item) (is : List Item) :
    textOf env reckeys (i :: is) = i.text env reckeys ++ textOf env reckeys is := rfl

theorem harmless_nil (room : Nat) : Harmless env reckeys [] room where
  whole := not_mem_nil
  short _ mem := absurd mem not_mem_nil
  fits := Nat.zero_le room

/-- Where no trouble is reached, all items are put together or NULL is returned. -/
theorem eval_harmless (dst : List Byte)
    (harmless : Harmless env reckeys (reached env reckeys is) (dstSize - dst.length))
    (within : dst.length ≤ dstSize) :
    is.foldlM (evalItem env reckeys) dst =
      if reached env reckeys is = is then .ok (dst ++ textOf env reckeys is) else .error .null := by
  induction is generalizing dst with
  | nil => exact (if_pos rfl).symm ▸ congrArg Except.ok (append_nil dst).symm
  | cons i is ih =>
    rw [foldlM_cons]
    cases stops : i.detected env reckeys with
    | true =>
      rw [evalItem_detected dst stops, reached_cons_detected stops,
        if_neg fun same => cons_ne_nil i is same.symm]
      rfl
    | false =>
      rw [reached_cons stops] at harmless
      have fits := harmless.fits
      rw [textOf_cons, length_append] at fits
      have room : dst.length + (i.text env reckeys).length ≤ dstSize := by omega
      rw [evalItem_harmless dst stops
        (fun cut => harmless.whole (cut ▸ mem_cons_self))
        (harmless.short i mem_cons_self), putText, if_pos room]
      change is.foldlM (evalItem env reckeys) (dst ++ i.text env reckeys) = _
      rw [ih (dst ++ i.text env reckeys)
        ⟨fun mem => harmless.whole (mem_cons_of_mem i mem),
          fun i' mem => harmless.short i' (mem_cons_of_mem i mem), by
            rw [length_append]
            omega⟩
        (by rw [length_append]; exact room), reached_cons stops, textOf_cons,
        append_assoc]
      simp only [List.cons.injEq, true_and]

theorem eval_harmful (dst : List Byte) (within : dst.length ≤ dstSize)
    (harmful : ¬ Harmless env reckeys (reached env reckeys is) (dstSize - dst.length)) :
    ∃ stop, is.foldlM (evalItem env reckeys) dst = .error stop ∧ stop ≠ .null := by
  induction is generalizing dst with
  | nil => exact absurd (harmless_nil _) harmful
  | cons i is ih =>
    rw [foldlM_cons]
    cases stops : i.detected env reckeys with
    | true =>
      rw [reached_cons_detected stops] at harmful
      exact absurd (harmless_nil _) harmful
    | false =>
      by_cases trouble : i = .cutOff ∨ i.long = true
      · rcases evalItem_harmful env reckeys dst trouble with stop | stop
        · exact ⟨.overread, by rw [stop]; rfl, by decide⟩
        · exact ⟨.forever, by rw [stop]; rfl, by decide⟩
      · rw [not_or] at trouble
        have short : i.long = false := Bool.eq_false_iff.mpr trouble.2
        rw [evalItem_harmless dst stops trouble.1 short, putText]
        by_cases room : dst.length + (i.text env reckeys).length ≤ dstSize
        · rw [if_pos room]
          apply ih (dst ++ i.text env reckeys)
          · rw [length_append]
            exact room
          · intro rest
            apply harmful
            rw [reached_cons stops]
            refine ⟨fun mem => ?_, fun i' mem => ?_, ?_⟩
            · rcases mem_cons.mp mem with same | mem
              · exact trouble.1 same.symm
              · exact rest.whole mem
            · rcases mem_cons.mp mem with rfl | mem
              · exact short
              · exact rest.short i' mem
            · have fits := rest.fits
              rw [length_append] at fits
              rw [textOf_cons, length_append]
              omega
        · rw [if_neg room]
          exact ⟨.overflow, rfl, by decide⟩

theorem getMatchFromSpec_items (spec : List Byte) :
    getMatchFromSpec env reckeys spec =
      ((items spec).foldlM (evalItem env reckeys) [] >>= fun dst =>
        if dst = [] then .error .null else (putByte dst 0).map fun _ => dst) := by
  rw [getMatchFromSpec, matchLoop_items]

theorem textOf_eq_nil (is : List Item) : textOf env reckeys is = [] ↔ is = [] := by
  constructor
  · intro none
    cases is with
    | nil => rfl
    | cons i is =>
      have pos := text_pos env reckeys i
      rw [textOf_cons, append_eq_nil_iff] at none
      rw [none.1] at pos
      exact absurd pos (Nat.lt_irrefl 0)
  · rintro rfl
    rfl

/-- What the function comes to where no trouble is reached. -/
theorem getMatchFromSpec_harmless {spec : List Byte}
    (harmless : Harmless env reckeys (reached env reckeys (items spec)) dstSize) :
    getMatchFromSpec env reckeys spec =
      if reached env reckeys (items spec) = items spec ∧ items spec ≠ [] then
        if (textOf env reckeys (items spec)).length < dstSize then
          .ok (textOf env reckeys (items spec)) else .error .overflow
      else .error .null := by
  rw [getMatchFromSpec_items, eval_harmless [] harmless (Nat.zero_le _)]
  by_cases all : reached env reckeys (items spec) = items spec
  · rw [if_pos all, nil_append]
    change (if textOf env reckeys (items spec) = [] then _ else _) = _
    by_cases empty : items spec = []
    · rw [if_pos ((textOf_eq_nil _).mpr empty), if_neg fun both => both.2 empty]
    · rw [if_neg fun none => empty ((textOf_eq_nil _).mp none), if_pos ⟨all, empty⟩, putByte]
      split
      · rfl
      · rfl
  · rw [if_neg all, if_neg fun both => all both.1]
    rfl

theorem detected_faulty (stops : i.detected env reckeys = true) : i.faulty env reckeys = true := by
  cases i with
  | wrong => rfl
  | cutOff => cases stops
  | attr name =>
    rw [Item.faulty, Item.value, if_pos (of_decide_eq_true stops)]
    rfl
  | var name => cases stops
  | literal text closed => cases stops

theorem exists_detected (some : reached env reckeys is ≠ is) :
    ∃ i ∈ is, i.detected env reckeys = true := by
  by_contra none
  push Not at none
  apply some
  apply takeWhile_eq_self_iff.mpr
  intro i mem
  rw [Bool.eq_false_iff.mpr (none i mem)]
  rfl

/-- A specification is parsed safely exactly when the condition is met. -/
theorem parsed_safely_iff (env : Env) (reckeys : List RecKey) (spec : List Byte) :
    ParsedSafely env reckeys spec ↔ Parsable env reckeys (items spec) := by
  by_cases harmless : Harmless env reckeys (reached env reckeys (items spec)) dstSize
  · have result := getMatchFromSpec_harmless harmless
    by_cases all : reached env reckeys (items spec) = items spec
    · by_cases empty : items spec = []
      · -- no item at all
        rw [if_neg fun both => both.2 empty] at result
        constructor
        · intro safe
          obtain ⟨i, mem, -⟩ := safe.null.mp result
          rw [empty] at mem
          cases mem
        · intro parsable
          exact absurd empty (parsable.valued all).1
      · rw [if_pos ⟨all, empty⟩] at result
        by_cases room : (textOf env reckeys (items spec)).length < dstSize
        · rw [if_pos room] at result
          constructor
          · intro safe
            refine ⟨harmless, fun _ => ⟨empty, fun i mem => ?_, room⟩⟩
            by_contra faulty
            have null := safe.null.mpr ⟨i, mem, Bool.not_eq_false _ ▸ faulty⟩
            rw [result] at null
            cases null
          · intro parsable
            obtain ⟨-, sound, -⟩ := parsable.valued all
            refine ⟨?_, ?_, ?_, ?_, ?_⟩
            · rw [result]
              exact nofun
            · rw [result]
              exact nofun
            · rw [result]
              exact nofun
            · rw [result]
              exact nofun
            · rintro ⟨i, mem, faulty⟩
              rw [sound i mem] at faulty
              cases faulty
        · rw [if_neg room] at result
          constructor
          · intro safe
            exact absurd result safe.fits
          · intro parsable
            exact absurd (parsable.valued all).2.2 room
    · rw [if_neg fun both => all both.1] at result
      obtain ⟨i, mem, stops⟩ := exists_detected all
      constructor
      · intro _
        exact ⟨harmless, fun same => absurd same all⟩
      · intro _
        refine ⟨?_, ?_, ?_, fun _ => ⟨i, mem, detected_faulty stops⟩, fun _ => result⟩
        · rw [result]
          decide
        · rw [result]
          decide
        · rw [result]
          decide
  · obtain ⟨stop, failed, harm⟩ := eval_harmful [] (Nat.zero_le _) harmless
    have result : getMatchFromSpec env reckeys spec = .error stop := by
      rw [getMatchFromSpec_items, failed]
      rfl
    constructor
    · intro safe
      cases stop with
      | null => exact absurd rfl harm
      | overread => exact absurd result safe.bounded
      | forever => exact absurd result safe.ends
      | overflow => exact absurd result safe.fits
    · intro parsable
      exact absurd parsable.harmless harmless

/-- The attribute that is not closed is read behind the end of the specification. -/
theorem not_parsed_safely : ¬ ∀ env reckeys spec, ParsedSafely env reckeys spec := by
  intro safe
  let env : Env :=
    { lookupAttrStr := fun _ _ => -1, group := none, database := [], fname := [],
      recordType := none }
  have cut : items [40, 97] = [.cutOff] := by
    rw [items_cons (c := 40) (s := [97]) rfl]
    exact congrArg (Item.cutOff :: ·) (items_nil rfl)
  apply (safe env [] [40, 97]).bounded
  rw [getMatchFromSpec_items, cut]
  rfl

end MatchSpec

end Zebra.Update
