import Mathlib.Data.List.TakeWhile
import Zebra.Search.TermChars

/-!
# Truncation masks

`term_100` to `term_106` of `rpnsearch.c`: a term with operators of truncation becomes a regular
expression.  Every character is mapped to itself, and white space is the blank alone.
-/

namespace Zebra.Masks

open Dfa Search Option List

/-- Which function takes the term; `term_105` has right truncation or not. -/
inductive Kind where
  | term100
  | term101
  | term104
  | term105 (rightTruncate : Bool)

def termPre (ct1 src : List Nat) : List Nat := src.dropWhile fun c => c ∉ ct1 ∧ c = 32

/-- The loop of `term_100`; the last blank of a run is written with the character behind it. -/
def term100Loop (spaceSplit : Bool) : Option Nat → List Nat → List Nat
  | _, [] => []
  | space, c :: rest =>
    if c = 32 then if spaceSplit then [] else term100Loop spaceSplit (some c) rest
    else space.toList.flatMap addNonSpace ++ addNonSpace c ++ term100Loop spaceSplit none rest

def intMax : Nat := 2147483647

def isDigit (c : Nat) : Bool := 48 ≤ c && c ≤ 57

/-- The digits behind `?`; there is no number where `limit` overflows. -/
def readLimit : Nat → List Nat → Option Nat × List Nat
  | limit, c :: rest =>
    if isDigit c then
      if limit * 10 + (c - 48) ≤ intMax then readLimit (limit * 10 + (c - 48)) rest
      else (none, rest)
    else (some limit, c :: rest)
  | limit, [] => (some limit, [])

/-- What an operator is written as, with what comes behind it -/
def operator (kind : Kind) (c : Nat) (rest : List Nat) : Option (Option (List Nat) × List Nat) :=
  match kind with
  | .term100 => none
  | .term101 => if c = 35 then some (some [46, 42], rest) else none
  | .term104 =>
    if c = 63 then
      if rest.head?.any isDigit then
        some ((readLimit 0 rest).1.map fun limit => (List.replicate (min limit 20) [46,
          63]).flatten,
          (readLimit 0 rest).2)
      else some (some [46, 42], rest)
    else if c = 42 then some (some [46, 42], rest)
    else if c = 35 then some (some [46], rest)
    else none
  | .term105 _ =>
    if c = 42 then some (some [46, 42], rest)
    else if c = 33 then some (some [46], rest)
    else if c = 92 then some (some [92, 92], rest)
    else none

/-- The loop of `term_101`, `term_104` and `term_105`, in as many rounds as there are characters -/
def termLoop (kind : Kind) (spaceSplit : Bool) : Nat → List Nat → Option (List Nat)
  | 0, _ => some []
  | _ + 1, [] => some []
  | rounds + 1, c :: rest =>
    match operator kind c rest with
    | some (written, rest) => do some ((← written) ++ (← termLoop kind spaceSplit rounds rest))
    | none =>
      if spaceSplit ∧ c = 32 then some []
      else (termLoop kind spaceSplit rounds rest).map (addNonSpace c ++ ·)

/-- What is written of a term; nothing is, not even the truncation, of a text without one. -/
def term (kind : Kind) (spaceSplit : Bool) (src : List Nat) : Option (List Nat) :=
  let loop (ct1 : List Nat) := termLoop kind spaceSplit src.length (termPre ct1 src)
  match kind with
  | .term100 => some (term100Loop spaceSplit none (termPre [] src))
  | .term101 => loop [35]
  | .term104 => loop [63, 42, 35]
  | .term105 rightTruncate =>
    if termPre [92, 42, 33] src = [] then some []
    else (loop [92, 42, 33]).map (· ++ if rightTruncate then [46, 42] else [])

inductive Mask where
  | char (c : Nat)
  | one
  | upTo (n : Nat)
  | string
  deriving DecidableEq

def Mask.Fits : Mask → List Nat → Prop
  | .char c, s => s = [c]
  | .one, s => s.length = 1
  | .upTo n, s => s.length ≤ min n 20
  | .string, _ => True

/-- The strings that a mask stands for -/
def Stands : List Mask → List Nat → Prop
  | [], s => s = []
  | mask :: masks, s => ∃ a b, s = a ++ b ∧ mask.Fits a ∧ Stands masks b

/-- Of a run of blanks one stays, and none at the end. -/
def squeeze : List Nat → List Nat
  | [] => []
  | c :: rest =>
    if c = 32 ∧ (squeeze rest = [] ∨ (squeeze rest).head? = some 32) then squeeze rest
    else c :: squeeze rest

/-- The characters of a term: it is one word, or the whole text with the blanks between words. -/
def taken (kind : Kind) (spaceSplit : Bool) (src : List Nat) : List Nat :=
  let text := src.dropWhile (· = 32)
  if spaceSplit then text.takeWhile (· ≠ 32)
  else match kind with
    | .term100 => squeeze text
    | _ => text

/-- The operators but `?` -/
def Kind.meaning : Kind → Nat → Option Mask
  | .term100, _ => none
  | .term101, c => if c = 35 then some .string else none
  | .term104, c => if c = 42 then some .string else if c = 35 then some .one else none
  | .term105 _, c => if c = 42 then some .string else if c = 33 then some .one else none

def Kind.truncated : Kind → List Mask
  | .term105 true => [.string]
  | _ => []

/-- `MaskOf kind text masks`: the characters of the text, as operators or for themselves -/
inductive MaskOf : Kind → List Nat → List Mask → Prop
  | nil {kind} : MaskOf kind [] kind.truncated
  | char {kind c rest masks} : kind.meaning c = none → ¬(kind = .term104 ∧ c = 63) →
      MaskOf kind rest masks → MaskOf kind (c :: rest) (.char c :: masks)
  | operator {kind c mask rest masks} : kind.meaning c = some mask → MaskOf kind rest masks →
      MaskOf kind (c :: rest) (mask :: masks)
  | any {rest masks} : rest.head?.any isDigit = false → MaskOf .term104 rest masks →
      MaskOf .term104 (63 :: rest) (.string :: masks)
  | number {digits rest masks} : digits ≠ [] → (∀ c ∈ digits, isDigit c) →
      rest.head?.any isDigit = false → MaskOf .term104 rest masks →
      MaskOf .term104 (63 :: (digits ++ rest))
        (.upTo (digits.foldl (fun n c => n * 10 + (c - 48)) 0) :: masks)

def Accepted (pattern : List Nat) : Prop :=
  ∃ fuel root p', doParse fuel (dfaAnysetIncludesNl dfaInit) pattern = some (.ok root, p')

/-- The expression of a term is accepted, and its strings are those of the mask. -/
def Meant (kind : Kind) (spaceSplit : Bool) (src : List Nat) (masks : List Mask) : Prop :=
  ∃ pattern, term kind spaceSplit src = some pattern ∧ Accepted pattern ∧
    ∃ l, PatternDenotes anyChar pattern l ∧ ∀ s, Bytes s → (text s ∈ l ↔ Stands masks s)

/-- What a mask is written as is cut up. -/
def Mask.split : Mask → List Mask
  | .upTo n => List.replicate (min n 20) (.upTo 1)
  | mask => [mask]

def Numbers (masks : List Mask) : Prop := ∀ n, .upTo n ∈ masks → n ≤ intMax

/-- The numbers are small, something is written, and of what is written no character ends the
expression, and none, but at its end, is the character that quotes. -/
structure Writable (masks : List Mask) : Prop where
  numbers : Numbers masks
  written : masks.flatMap Mask.split ≠ []
  noEnds : .char 9 ∉ masks ∧ .char 10 ∉ masks
  noQuote : ∀ front back, masks.flatMap Mask.split = front ++ .char 1 :: back → back = []

def Mask.written : Mask → List Nat
  | .char c => addNonSpace c
  | .one => [46]
  | .upTo _ => [46, 63]
  | .string => [46, 42]

def written (masks : List Mask) : List Nat := (masks.flatMap Mask.split).flatMap Mask.written

variable {kind : Kind} {spaceSplit : Bool} {src rest : List Nat} {masks : List Mask}

theorem squeeze_blank (s : List Nat) : squeeze (32 :: 32 :: s) = squeeze (32 :: s) := by
  conv_lhs => rw [squeeze]
  refine if_pos ⟨rfl, ?_⟩
  rw [squeeze]
  split
  · next stays => exact stays.2
  · exact .inr rfl

theorem squeeze_behind {c : Nat} (other : c ≠ 32) (s : List Nat) :
    squeeze (32 :: c :: s) = 32 :: c :: squeeze s := by
  have stays : squeeze (c :: s) = c :: squeeze s := by
    rw [squeeze]
    exact if_neg fun blank => other blank.1
  rw [squeeze, stays]
  refine if_neg ?_
  rintro ⟨-, none | blank⟩
  · exact cons_ne_nil _ _ none
  · exact other (some.inj blank)

theorem term100Loop_eq (s : List Nat) :
    term100Loop false none s = (squeeze s).flatMap addNonSpace ∧
      term100Loop false (some 32) s = (squeeze (32 :: s)).flatMap addNonSpace := by
  induction s with
  | nil => exact ⟨rfl, rfl⟩
  | cons c s ih =>
    by_cases blank : c = 32
    · subst blank
      rw [term100Loop, if_pos rfl, term100Loop, if_pos rfl, squeeze_blank]
      exact ⟨ih.2, ih.2⟩
    · rw [term100Loop, if_neg blank, term100Loop, if_neg blank, squeeze_behind blank, squeeze,
        if_neg (fun stays => blank stays.1), ih.1]
      exact ⟨rfl, rfl⟩

theorem term100Loop_split (s : List Nat) :
    term100Loop true none s = (s.takeWhile (· ≠ 32)).flatMap addNonSpace := by
  induction s with
  | nil => rfl
  | cons c s ih =>
    by_cases blank : c = 32
    · rw [term100Loop, if_pos blank, takeWhile_cons_of_neg (by simpa using blank)]
      rfl
    · rw [term100Loop, if_neg blank, takeWhile_cons_of_pos (by simpa using blank), ih]
      rfl

theorem written_cons (mask : Mask) (masks : List Mask) :
    written (mask :: masks) = mask.split.flatMap Mask.written ++ written masks := by
  rw [written, flatMap_cons, flatMap_append, written]

/-- Without operators every character stands for itself. -/
theorem MaskOf.chars {text : List Nat} (mask : MaskOf kind text masks) (plain : kind = .term100) :
    written masks = text.flatMap addNonSpace ∧ ∀ n, .upTo n ∉ masks := by
  induction mask with
  | nil =>
    subst plain
    exact ⟨rfl, fun n => not_mem_nil⟩
  | @char _ c _ _ _ _ _ ih =>
    obtain ⟨same, none⟩ := ih plain
    rw [written_cons, same]
    exact ⟨by simp [Mask.split, Mask.written], fun n mem => none n (by simpa using mem)⟩
  | operator is =>
    subst plain
    cases is
  | any => cases plain
  | number => cases plain

theorem le_number (digits : List Nat) (n : Nat) :
    n ≤ digits.foldl (fun n c => n * 10 + (c - 48)) n := by
  induction digits generalizing n with
  | nil => exact le_refl n
  | cons c digits ih =>
    have grows : n ≤ n * 10 + (c - 48) := by omega
    exact grows.trans (ih _)

theorem readLimit_spec {digits : List Nat} (all : ∀ c ∈ digits, isDigit c)
    (stop : rest.head?.any isDigit = false) (limit : Nat) (small : limit ≤ intMax) :
    (digits.foldl (fun n c => n * 10 + (c - 48)) limit ≤ intMax →
      readLimit limit (digits ++ rest) =
        (some (digits.foldl (fun n c => n * 10 + (c - 48)) limit), rest)) ∧
    (intMax < digits.foldl (fun n c => n * 10 + (c - 48)) limit →
      (readLimit limit (digits ++ rest)).1 = none) := by
  induction digits generalizing limit with
  | nil =>
    refine ⟨fun _ => ?_, fun large => absurd large (not_lt.mpr small)⟩
    cases rest with
    | nil => rfl
    | cons c rest =>
      have other : isDigit c = false := stop
      rw [nil_append, readLimit, if_neg (by rw [other]; exact Bool.false_ne_true)]
      rfl
  | cons c digits ih =>
    obtain ⟨digit, all⟩ := forall_mem_cons.mp all
    rw [cons_append, readLimit, if_pos digit, foldl_cons]
    split
    · next fits => exact ih all _ fits
    · next large =>
      have := le_number digits (limit * 10 + (c - 48))
      exact ⟨fun fits => absurd fits (by omega), fun _ => rfl⟩

def Kind.truncation : Kind → List Nat
  | .term105 true => [46, 42]
  | _ => []

/-- `out` is what is written of the masks, unless a number overflows. -/
def Spelled (kind : Kind) (masks : List Mask) (out : Option (List Nat)) : Prop :=
  (Numbers masks → out.map (· ++ kind.truncation) = some (written masks)) ∧
    (¬Numbers masks → out = none)

variable {out : Option (List Nat)} {mask : Mask}

theorem numbers_cons :
    Numbers (mask :: masks) ↔ (∀ n, mask = .upTo n → n ≤ intMax) ∧ Numbers masks := by
  constructor
  · exact fun numbers => ⟨fun n is => numbers n (is ▸ mem_cons_self),
      fun n mem => numbers n (.tail _ mem)⟩
  · rintro ⟨first, numbers⟩ n mem
    exact (mem_cons.mp mem).elim (fun is => first n is.symm) (numbers n)

theorem Spelled.cons (spelled : Spelled kind masks out) {w : List Nat}
    (same : mask.split.flatMap Mask.written = w) (small : ∀ n, mask = .upTo n → n ≤ intMax) :
    Spelled kind (mask :: masks) (out.map (w ++ ·)) := by
  rw [Spelled, numbers_cons, and_iff_right small, written_cons, same]
  refine ⟨fun numbers => ?_, fun numbers => ?_⟩
  · obtain ⟨front, is, eq⟩ := map_eq_some_iff.mp (spelled.1 numbers)
    rw [is, map_some, map_some, append_assoc, eq]
  · rw [spelled.2 numbers]
    rfl

theorem operator_written {kind : Kind} {c : Nat} {w text : List Nat} {rounds : Nat}
    (is : operator kind c rest = some (some w, text)) :
    termLoop kind spaceSplit (rounds + 1) (c :: rest) =
      (termLoop kind spaceSplit rounds text).map (w ++ ·) := by
  rw [termLoop, is]
  dsimp only
  cases termLoop kind spaceSplit rounds text with
  | none => rfl
  | some => rfl

theorem operator_char {c : Nat} (plain : kind.meaning c = none)
    (no_query : ¬(kind = .term104 ∧ c = 63)) (rest : List Nat) :
    operator kind c rest = none ∨
      c = 92 ∧ operator kind c rest = some (some (addNonSpace c), rest) := by
  cases kind with
  | term100 => exact .inl rfl
  | term101 =>
    rw [Kind.meaning] at plain
    split at plain
    · cases plain
    · next other => exact .inl (if_neg other)
  | term104 =>
    rw [Kind.meaning] at plain
    split at plain
    · cases plain
    split at plain
    · cases plain
    next star hash =>
      rw [operator, if_neg fun same => no_query ⟨rfl, same⟩, if_neg star, if_neg hash]
      exact .inl rfl
  | term105 =>
    rw [Kind.meaning] at plain
    split at plain
    · cases plain
    split at plain
    · cases plain
    next star bang =>
      rw [operator, if_neg star, if_neg bang]
      split
      · next escape =>
        subst escape
        exact .inr ⟨rfl, rfl⟩
      · exact .inl rfl

theorem operator_meaning {c : Nat} (is : kind.meaning c = some mask) (rest : List Nat) :
    (∀ n, mask ≠ .upTo n) ∧
      operator kind c rest = some (some (mask.split.flatMap Mask.written), rest) := by
  cases kind with
  | term100 => cases is
  | term101 =>
    rw [Kind.meaning] at is
    split at is
    · next hash =>
      cases is
      exact ⟨nofun, if_pos hash⟩
    · cases is
  | term104 =>
    rw [Kind.meaning] at is
    split at is
    · next star =>
      cases is
      subst star
      exact ⟨nofun, rfl⟩
    split at is
    · next hash =>
      cases is
      subst hash
      exact ⟨nofun, rfl⟩
    · cases is
  | term105 =>
    rw [Kind.meaning] at is
    split at is
    · next star =>
      cases is
      subst star
      exact ⟨nofun, rfl⟩
    split at is
    · next bang =>
      cases is
      subst bang
      exact ⟨nofun, rfl⟩
    · cases is

theorem termLoop_spec {text tail : List Nat} (mask : MaskOf kind text masks)
    (end_ : tail = [] ∨ spaceSplit = true ∧ tail.head? = some 32)
    (word : spaceSplit = true → 32 ∉ text) (other : kind ≠ .term100) {rounds : Nat}
    (enough : text.length ≤ rounds) :
    Spelled kind masks (termLoop kind spaceSplit rounds (text ++ tail)) := by
  have not_digit {rest : List Nat} (stop : rest.head?.any isDigit = false) :
      (rest ++ tail).head?.any isDigit = false := by
    cases rest with
    | cons => exact stop
    | nil =>
      rcases end_ with rfl | ⟨-, blank⟩
      · rfl
      · rw [nil_append, blank]
        rfl
  induction mask generalizing rounds with
  | @nil kind =>
    have stops : termLoop kind spaceSplit rounds ([] ++ tail) = some [] := by
      cases rounds with
      | zero => rfl
      | succ rounds =>
        cases tail with
        | nil => rfl
        | cons c tail =>
          obtain ⟨split, blank⟩ := end_.resolve_left (cons_ne_nil _ _)
          obtain rfl := some.inj blank
          have none : operator kind 32 tail = none := by
            cases kind <;> rfl
          rw [nil_append, termLoop, none]
          exact if_pos ⟨split, rfl⟩
    rw [stops]
    match kind with
    | .term105 true | .term105 false | .term104 | .term101 =>
      exact ⟨fun _ => rfl, fun numbers => absurd (by simp [Numbers, Kind.truncated]) numbers⟩
  | @char kind c rest masks plain no_query _ ih =>
    obtain _ | rounds := rounds
    · exact absurd enough (Nat.not_succ_le_zero _)
    have same : (Mask.char c).split.flatMap Mask.written = addNonSpace c := append_nil _
    have spelled := (ih (fun split mem => word split (.tail _ mem)) other
      (Nat.le_of_succ_le_succ enough)).cons same nofun
    rcases operator_char plain no_query (rest ++ tail) with none | ⟨rfl, is⟩
    · rw [cons_append, termLoop, none]
      dsimp only
      rwa [if_neg fun blank : spaceSplit = true ∧ c = 32 => word blank.1 (blank.2 ▸ .head _)]
    · rwa [cons_append, operator_written is]
  | @operator kind c mask rest masks is _ ih =>
    obtain _ | rounds := rounds
    · exact absurd enough (Nat.not_succ_le_zero _)
    obtain ⟨no_number, written⟩ := operator_meaning is (rest ++ tail)
    rw [cons_append, operator_written written]
    exact (ih (fun split mem => word split (.tail _ mem)) other
      (Nat.le_of_succ_le_succ enough)).cons rfl fun n same => absurd same (no_number n)
  | @any rest masks stop _ ih =>
    obtain _ | rounds := rounds
    · exact absurd enough (Nat.not_succ_le_zero _)
    have is : operator .term104 63 (rest ++ tail) = some (some [46, 42], rest ++ tail) := by
      rw [operator, if_pos rfl, if_neg (by rw [not_digit stop]; exact Bool.false_ne_true)]
    rw [cons_append, operator_written is]
    exact (ih (fun split mem => word split (.tail _ mem)) other
      (Nat.le_of_succ_le_succ enough)).cons rfl nofun
  | @number digits rest masks some_digit all stop _ ih =>
    obtain _ | rounds := rounds
    · exact absurd enough (Nat.not_succ_le_zero _)
    have digit : (digits ++ rest ++ tail).head?.any isDigit := by
      obtain ⟨c, digits, rfl⟩ := exists_cons_of_ne_nil some_digit
      exact all c mem_cons_self
    have read := readLimit_spec all (not_digit stop) 0 (Nat.zero_le _)
    have is : operator .term104 63 (digits ++ rest ++ tail) =
        some ((readLimit 0 (digits ++ (rest ++ tail))).1.map fun limit =>
          (replicate (min limit 20) [46, 63]).flatten,
            (readLimit 0 (digits ++ (rest ++ tail))).2) := by
      rw [operator, if_pos rfl, if_pos digit, append_assoc]
    by_cases fits : digits.foldl (fun n c => n * 10 + (c - 48)) 0 ≤ intMax
    · rw [read.1 fits] at is
      rw [cons_append, operator_written is]
      have shorter := Nat.le_of_succ_le_succ enough
      rw [length_append] at shorter
      exact (ih (fun split mem => word split (.tail _ (mem_append_right _ mem)))
        other (by omega)).cons (by rw [Mask.split, flatMap_def, map_replicate]; rfl)
        fun n same => Mask.upTo.inj same ▸ fits
    · rw [read.2 (not_le.mp fits)] at is
      refine ⟨fun numbers => absurd (numbers _ mem_cons_self) fits, fun _ => ?_⟩
      rw [cons_append, termLoop, is]
      rfl

theorem termPre_eq {ct1 : List Nat} (no_blank : 32 ∉ ct1) (src : List Nat) :
    termPre ct1 src = src.dropWhile (· = 32) := by
  rw [termPre]
  congr 1
  funext c
  by_cases blank : c = 32
  · subst blank
    simp [no_blank]
  · simp [blank]

theorem dropWhile_word (s : List Nat) :
    s.dropWhile (· ≠ 32) = [] ∨ (s.dropWhile (· ≠ 32)).head? = some 32 := by
  induction s with
  | nil => exact .inl rfl
  | cons c s ih =>
    by_cases blank : c = 32
    · rw [dropWhile_cons_of_neg (by simpa using blank), blank]
      exact .inr rfl
    · rwa [dropWhile_cons_of_pos (by simpa using blank)]

theorem loop_spec (mask : MaskOf kind (taken kind spaceSplit src) masks) (other : kind ≠ .term100)
    {ct1 : List Nat} (no_blank : 32 ∉ ct1) :
    Spelled kind masks (termLoop kind spaceSplit src.length (termPre ct1 src)) := by
  rw [termPre_eq no_blank]
  have short : (src.dropWhile (· = 32)).length ≤ src.length := (dropWhile_sublist _).length_le
  cases spaceSplit with
  | false =>
    have whole : taken kind false src = src.dropWhile (· = 32) := by
      cases kind with
      | term100 => exact absurd rfl other
      | _ => rfl
    rw [whole] at mask
    have spelled : Spelled kind masks (termLoop kind false src.length (_ ++ [])) :=
      termLoop_spec mask (.inl rfl) (fun split : false = true => nomatch split) other short
    rwa [append_nil] at spelled
  | true =>
    have word : taken kind true src = (src.dropWhile (· = 32)).takeWhile (· ≠ 32) := rfl
    rw [word] at mask
    have no_blank : 32 ∉ (src.dropWhile (· = 32)).takeWhile (· ≠ 32) := fun mem => by
      simpa using mem_takeWhile_imp mem
    have tail := dropWhile_word (src.dropWhile (· = 32))
    have spelled := termLoop_spec mask (tail.imp_right fun blank => ⟨rfl, blank⟩)
        (fun _ => no_blank)
      other ((takeWhile_sublist _).length_le.trans short)
    rwa [takeWhile_append_dropWhile] at spelled

theorem term_spec (term_ : taken kind spaceSplit src ≠ [])
    (mask : MaskOf kind (taken kind spaceSplit src) masks) :
    (Numbers masks → term kind spaceSplit src = some (written masks)) ∧
      (¬Numbers masks → term kind spaceSplit src = none) := by
  match kind with
  | .term100 =>
    obtain ⟨same, none⟩ := mask.chars rfl
    refine ⟨fun _ => ?_, fun numbers => absurd (fun n mem => absurd mem (none n)) numbers⟩
    rw [same, term.eq_def, termPre_eq not_mem_nil]
    cases spaceSplit with
    | false => exact congrArg some (term100Loop_eq _).1
    | true => exact congrArg some (term100Loop_split _)
  | .term101 =>
    have spelled := loop_spec mask nofun (by decide : 32 ∉ [35])
    exact ⟨fun numbers => by simpa [Kind.truncation, term] using spelled.1 numbers, spelled.2⟩
  | .term104 =>
    have spelled := loop_spec mask nofun (by decide : 32 ∉ [63, 42, 35])
    exact ⟨fun numbers => by simpa [Kind.truncation, term] using spelled.1 numbers, spelled.2⟩
  | .term105 rightTruncate =>
    have spelled := loop_spec mask nofun (by decide : 32 ∉ [92, 42, 33])
    have text : termPre [92, 42, 33] src ≠ [] := by
      intro none
      rw [termPre_eq (by decide)] at none
      simp only [taken, none] at term_
      cases spaceSplit with
      | false => exact term_ rfl
      | true => exact term_ rfl
    rw [term, if_neg text]
    cases rightTruncate with
    | false | true => exact ⟨spelled.1, fun numbers => congrArg _ (spelled.2 numbers)⟩

end Zebra.Masks
