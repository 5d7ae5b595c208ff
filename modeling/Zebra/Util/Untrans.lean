import Zebra.Util.CharMap

/-!
# Terms as they were written

`chrmaptab_create` numbers the entries of a map and keeps, by the numbers, what is written for them;
an entry of `uppercase` is numbered as the one of `lowercase` at its place.  `zebra_term_untrans`
takes a term back through that table.
-/

namespace Zebra.CharMap

open List Option Function

/-- A directive of a map, with the entries of its argument. -/
inductive Directive where
  | lowercase (entries : List (List Byte))
  | uppercase (entries : List (List Byte))
  | space (entries : List (List Byte))
  | cut (entries : List (List Byte))

/-- The tables of `struct chrmaptab_info`; an output is none where nothing has been stored, and null
where there is no string. -/
structure ChrMapTab where
  input : ChrTEntry
  output : Nat → Option (Option (List Byte))
  baseUppercase : Nat

/-- `CHR_BASE_CHAR` -/
def chrBase : Nat := 5

/-- A string is stored in the output table, which has 256 of them. -/
def setOutput (tab : ChrMapTab) (c : Nat) (s : List Byte) : Option ChrMapTab :=
  if c < 256 then some { tab with output := Function.update tab.output c (some (some s)) } else none

def funAddentry (tab : ChrMapTab) (s : List Byte) (num : Nat) : Option ChrMapTab :=
  setOutput { tab with input := setMapString (some tab.input) s [num] } (num + tab.baseUppercase) s

/-- `scan_string` with `fun_addentry`, on the entries it scans -/
def scanEntries (tab : ChrMapTab) (num : Nat) : List (List Byte) → Option (ChrMapTab × Nat)
  | [] => some (tab, num)
  | s :: entries => (funAddentry tab s num).bind fun tab => scanEntries tab (num + 1) entries

/-- `scan_string` with `fun_addspace` or `fun_addcut` -/
def scanTargets (tab : ChrMapTab) (target : List Byte) (entries : List (List Byte)) : ChrMapTab :=
  { tab with
    input := entries.foldl (fun input s => setMapString (some input) s target) tab.input }

/-- What `chrmaptab_create` begins with. -/
def initialTab : ChrMapTab where
  input := initialInput
  output := fun c =>
    if c = 2 then some (some [32]) else if c = 1 then some (some [64])
    else if chrBase ≤ c then some none else none
  baseUppercase := 0

/-- A directive in `chrmaptab_create`, with `num`; none where it is an error or stores outside of
the output table. -/
def directive (state : ChrMapTab × Nat) : Directive → Option (ChrMapTab × Nat)
  | .lowercase entries =>
    (scanEntries state.1 state.2 entries).bind fun scanned =>
      (setOutput { scanned.1 with baseUppercase := scanned.2 } (2 + scanned.2) [32]).bind fun tab =>
        (setOutput tab (1 + scanned.2) [64]).map fun tab => (tab, chrBase)
  | .uppercase entries =>
    if state.1.baseUppercase = 0 then none else scanEntries state.1 state.2 entries
  | .space entries => some (scanTargets state.1 chrSpace entries, state.2)
  | .cut entries => some (scanTargets state.1 chrCut entries, state.2)

/-- `chrmaptab_create` from the state it has reached -/
def directives (state : ChrMapTab × Nat) : List Directive → Option (ChrMapTab × Nat)
  | [] => some state
  | d :: ds => (directive state d).bind fun state => directives state ds

def chrmaptabCreate (ds : List Directive) : Option ChrMapTab :=
  (directives (initialTab, chrBase) ds).map Prod.fst

/-- The translations of an input by `chr_map_input`, one behind another; `first` is for the first of
them, and `fuel` is the length of the input. -/
def translate (input : ChrTEntry) : Nat → Bool → List Byte → Option (List Byte)
  | _, _, [] => some []
  | 0, _, _ :: _ => none
  | fuel + 1, first, c :: rest =>
    (chrMapInput input (c :: rest) first).bind fun mapped =>
      (translate input fuel false mapped.2).map fun codes => mapped.1 ++ codes

/-- `IT_MAX_WORD - 1` -/
def maxWord : Nat := 511

/-- `zebra_term_untrans` with what `dst` has; none where an output is used that has not been
stored. -/
def zebraTermUntrans (output : Nat → Option (Option (List Byte))) (dst : List Byte) :
    List Byte → Option (List Byte)
  | [] => some dst
  | c :: src =>
    if c = 0 then some dst
    else
      match output c with
      | none => none
      | some none => zebraTermUntrans output (if dst.length < maxWord then dst ++ [c] else dst) src
      | some (some cp) => zebraTermUntrans output (dst ++ cp.take (maxWord - dst.length)) src

def lastOf {α : Type} (sets : List (List Byte × α)) (key : List Byte) : Option α :=
  (sets.reverse.find? fun set => set.1 = key).map Prod.snd

/-- What a directive says of its entries, where `lower` is what they are in lower case: the text of
an entry or a space, and nothing for a cut. -/
def Directive.texts (lower : List (List Byte)) : Directive → List (List Byte × Option (List Byte))
  | .lowercase entries => entries.map fun e => (e, some e)
  | .uppercase entries => (entries.zip lower).map fun e => (e.1, some e.2)
  | .space entries => entries.map fun e => (e, some [32])
  | .cut entries => entries.map fun e => (e, none)

/-- What the last directive that has a key says of it, for a key that is not empty. -/
def textOf (lower : List (List Byte)) (ds : List Directive) (key : List Byte) :
    Option (Option (List Byte)) :=
  if key = [] then none else lastOf (ds.flatMap (Directive.texts lower)) key

def anchoredText (lower : List (List Byte)) (ds : List Directive) (key : List Byte) :
    Option (Option (List Byte)) :=
  if key = [] then none else lastOf (ds.flatMap (Directive.texts lower)) (chrFieldBegin :: key)

def NoPart (f : List Byte → Option (Option (List Byte))) (s : List Byte) : Prop :=
  ∀ n, n ≤ s.length → f (s.take n) = none

/-- The text of the longest key at the beginning of an input, with its length; a character with
which no key begins is written as `@`. -/
inductive Part (text anchored : List Byte → Option (Option (List Byte))) (s : List Byte) :
    Bool → List Byte → Nat → Prop where
  | anchored {n : Nat} {t : List Byte} : LongestFront anchored s n (some t) →
      Part text anchored s true t n
  | longest {first : Bool} {n : Nat} {t : List Byte} : (first = true → NoPart anchored s) →
      LongestFront text s n (some t) → Part text anchored s first t n
  | unknown {first : Bool} : (first = true → NoPart anchored s) → NoPart text s →
      Part text anchored s first [64] 1

/-- The canonical form of an input that has no cuts. -/
inductive Canonical (text anchored : List Byte → Option (Option (List Byte))) :
    Bool → List Byte → List Byte → Prop where
  | nil {first : Bool} : Canonical text anchored first [] []
  | part {first : Bool} {s t rest : List Byte} {n : Nat} : s ≠ [] → Part text anchored s first t n →
      Canonical text anchored false (s.drop n) rest → Canonical text anchored first s (t ++ rest)

/-- The keys of a list of entries with the numbers they get. -/
def numbered (num : Nat) (entries : List (List Byte)) : List (List Byte × List Byte) :=
  (entries.zipIdx num).map fun e => (e.1, [e.2])

def Directive.targets : Directive → List (List Byte × List Byte)
  | .lowercase _ => []
  | .uppercase _ => []
  | .space entries => entries.map fun e => (e, chrSpace)
  | .cut entries => entries.map fun e => (e, chrCut)

/-- A directive that is `space` or `cut`. -/
def Directive.Plain : Directive → Prop
  | .lowercase _ => False
  | .uppercase _ => False
  | .space _ => True
  | .cut _ => True

open Directive (targets texts)

def setAll (input : ChrTEntry) (sets : List (List Byte × List Byte)) : ChrTEntry :=
  sets.foldl (fun root set => setMapString (some root) set.1 set.2) input

theorem setAll_append (input : ChrTEntry) (sets more : List (List Byte × List Byte)) :
    setAll input (sets ++ more) = setAll (setAll input sets) more :=
  foldl_append

theorem setOutput_spec (tab : ChrMapTab) {c : Nat} (s : List Byte) (small : c < 256) :
    setOutput tab c s = some { tab with output := Function.update tab.output c (some (some s)) } :=
  if_pos small

/-- Entries are stored from their first number on, and nothing below. -/
theorem scanEntries_spec (entries : List (List Byte)) (tab : ChrMapTab) (num : Nat)
    (fits : num + tab.baseUppercase + entries.length ≤ 256) :
    ∃ after, scanEntries tab num entries = some (after, num + entries.length) ∧
      after.baseUppercase = tab.baseUppercase ∧
      after.input = setAll tab.input (numbered num entries) ∧
      (∀ j e, entries[j]? = some e →
        after.output (num + tab.baseUppercase + j) = some (some e)) ∧
      ∀ c, c < num + tab.baseUppercase → after.output c = tab.output c := by
  induction entries generalizing tab num with
  | nil =>
    refine ⟨tab, rfl, rfl, rfl, fun j e at' => ?_, fun c _ => rfl⟩
    cases at'
  | cons s entries ih =>
    rw [length_cons] at fits
    have added := setOutput_spec { tab with input := setMapString (some tab.input) s [num] } s
      (show num + tab.baseUppercase < 256 by omega)
    obtain ⟨after, scanned, base, input, stored, below⟩ := ih
      { tab with
        input := setMapString (some tab.input) s [num]
        output := Function.update tab.output (num + tab.baseUppercase) (some (some s)) } (num + 1)
      (by dsimp only; omega)
    dsimp only at base input stored below
    refine ⟨after, ?_, base, input, fun j e at' => ?_, fun c less => ?_⟩
    · rw [scanEntries, funAddentry, added, bind_some, scanned, length_cons]
      congr 2
      omega
    · cases j with
      | zero =>
        obtain rfl : s = e := some.inj at'
        rw [Nat.add_zero, below _ (by omega), update_self]
      | succ j =>
        have next := stored j e at'
        rwa [show num + 1 + tab.baseUppercase + j = num + tab.baseUppercase + (j + 1) by omega]
          at next
    · rw [below c (by omega), update_of_ne (Nat.ne_of_lt less)]

/-- Directives that have no numbers change the table for input only. -/
theorem directives_plain (ds more : List Directive) (plain : ∀ d ∈ ds, d.Plain) (tab : ChrMapTab)
    (num : Nat) : directives (tab, num) (ds ++ more) =
      directives ({ tab with input := setAll tab.input (ds.flatMap targets) }, num) more := by
  induction ds generalizing tab with
  | nil => rfl
  | cons d ds ih =>
    have own : directive (tab, num) d =
        some ({ tab with input := setAll tab.input d.targets }, num) := by
      cases d with
      | lowercase entries => exact (plain _ mem_cons_self).elim
      | uppercase entries => exact (plain _ mem_cons_self).elim
      | space entries => rw [directive, scanTargets, setAll, targets, foldl_map]
      | cut entries => rw [directive, scanTargets, setAll, targets, foldl_map]
    rw [cons_append, directives, own, bind_some,
      ih fun d mem => plain d (.tail _ mem), flatMap_cons, setAll_append]

/-- What `chrmaptab_create` has stored for a map whose entries fit in the output table. -/
structure Stored (tab : ChrMapTab) (lower : List (List Byte))
    (sets : List (List Byte × List Byte)) : Prop where
  input : tab.input = mapInput sets
  space : tab.output 2 = some (some [32])
  unknown : tab.output 1 = some (some [64])
  entry : ∀ j e, lower[j]? = some e → tab.output (chrBase + j) = some (some e)

theorem chrmaptabCreate_stored {pre mid post : List Directive} {lower upper : List (List Byte)}
    (plainPre : ∀ d ∈ pre, d.Plain) (plainMid : ∀ d ∈ mid, d.Plain)
      (plainPost : ∀ d ∈ post, d.Plain)
    (same : lower.length = upper.length) (fits : 2 * chrBase + 2 * lower.length ≤ 256) :
    ∃ tab, chrmaptabCreate (pre ++ .lowercase lower :: (mid ++ .uppercase upper :: post)) =
      some tab ∧
      Stored tab lower (pre.flatMap targets ++ (numbered chrBase lower ++
        (mid.flatMap targets ++ (numbered chrBase upper ++
          post.flatMap targets)))) := by
  have five : chrBase = 5 := rfl
  have zero : initialTab.baseUppercase = 0 := rfl
  obtain ⟨low, lowScan, lowBase, lowInput, lowStored, lowBelow⟩ := scanEntries_spec lower
    { initialTab with input := setAll initialTab.input (pre.flatMap targets) } chrBase
    (by dsimp only; omega)
  dsimp only at lowBase lowInput lowStored lowBelow
  rw [zero, Nat.add_zero] at lowStored lowBelow
  have spaceFits : 2 + (chrBase + lower.length) < 256 := by omega
  have unknownFits : 1 + (chrBase + lower.length) < 256 := by omega
  obtain ⟨up, upScan, upBase, upInput, upStored, upBelow⟩ := scanEntries_spec upper
    { input := setAll low.input (mid.flatMap targets)
      output := Function.update (Function.update low.output (2 + (chrBase + lower.length))
        (some (some [32]))) (1 + (chrBase + lower.length)) (some (some [64]))
      baseUppercase := chrBase + lower.length } chrBase
    (by dsimp only; omega)
  dsimp only at upBase upInput upStored upBelow
  have kept (c : Nat) (less : c < chrBase + lower.length) : up.output c = low.output c := by
    rw [upBelow c (by omega), update_of_ne (by omega), update_of_ne (by omega)]
  refine ⟨{ up with input := setAll up.input (post.flatMap targets) }, ?_, ?_, ?_, ?_, ?_⟩
  · rw [chrmaptabCreate, directives_plain pre _ plainPre, directives, directive]
    dsimp only
    rw [lowScan, bind_some]
    dsimp only
    rw [setOutput_spec _ _ spaceFits, bind_some, setOutput_spec _ _ unknownFits,
      map_some, bind_some, directives_plain mid _ plainMid, directives, directive]
    dsimp only
    rw [if_neg (by omega), upScan, bind_some, ← append_nil post,
      directives_plain post _ plainPost, append_nil]
    rfl
  · dsimp only
    rw [upInput, lowInput, ← setAll_append, ← setAll_append, ← setAll_append, ← setAll_append]
    rfl
  · dsimp only
    rw [kept 2 (by omega), lowBelow 2 (by omega)]
    rfl
  · dsimp only
    rw [kept 1 (by omega), lowBelow 1 (by omega)]
    rfl
  · intro j e at'
    have within : j < lower.length := (List.getElem?_eq_some_iff.mp at').1
    dsimp only
    rw [kept _ (by omega), lowStored j e at']

/-- A target is read back as the text. -/
inductive Reads (output : Nat → Option (Option (List Byte))) :
    List Byte → Option (List Byte) → Prop where
  | text {c : Byte} {t : List Byte} : 0 < c → output c = some (some t) → Reads output [c] (some t)
  | cut : Reads output chrCut none

/-- Two lists give the same keys values that are related. -/
def Alike {α β : Type} (R : α → β → Prop) : List (List Byte × α) → List (List Byte × β) → Prop :=
  List.Forall₂ fun a b => a.1 = b.1 ∧ R a.2 b.2

theorem lastOf_alike {α β : Type} {R : α → β → Prop} {sets : List (List Byte × α)}
    {texts : List (List Byte × β)} (alike : Alike R sets texts) (key : List Byte) :
    Option.Rel R (lastOf sets key) (lastOf texts key) := by
  unfold lastOf
  have reversed := List.forall₂_reverse_iff.mpr alike
  generalize sets.reverse = sets at reversed ⊢
  generalize texts.reverse = texts at reversed ⊢
  induction reversed with
  | nil => exact .none
  | cons head _ ih =>
    obtain ⟨same, related⟩ := head
    rw [List.find?_cons, List.find?_cons, ← same]
    split
    · exact .some related
    · exact ih

theorem alike_map {α β γ : Type} {R : β → γ → Prop} {f : α → List Byte × β} {g : α → List Byte × γ}
    (entries : List α) (each : ∀ e ∈ entries, (f e).1 = (g e).1 ∧ R (f e).2 (g e).2) :
    Alike R (entries.map f) (entries.map g) := by
  unfold Alike
  rw [List.forall₂_map_left_iff, List.forall₂_map_right_iff, List.forall₂_same]
  exact each

variable {tab : ChrMapTab} {lower : List (List Byte)} {sets : List (List Byte × List Byte)}

variable {ds : List Directive}

theorem Stored.plain_alike (stored : Stored tab lower sets) (plain : ∀ d ∈ ds, d.Plain) :
    Alike (Reads tab.output) (ds.flatMap targets) (ds.flatMap (texts lower)) := by
  induction ds with
  | nil => exact .nil
  | cons d ds ih =>
    rw [flatMap_cons, flatMap_cons]
    refine rel_append ?_ (ih fun d mem => plain d (.tail _ mem))
    cases d with
    | lowercase entries => exact (plain _ mem_cons_self).elim
    | uppercase entries => exact (plain _ mem_cons_self).elim
    | space entries => exact alike_map entries fun e _ => ⟨rfl, .text Nat.two_pos stored.space⟩
    | cut entries => exact alike_map entries fun e _ => ⟨rfl, .cut⟩

/-- Numbered entries are read back as the texts at their places. -/
theorem numbered_alike {output : Nat → Option (Option (List Byte))}
    {entries texts : List (List Byte)}
    (num : Nat) (pos : 0 < num) (same : entries.length = texts.length)
    (stored : ∀ j t, texts[j]? = some t → output (num + j) = some (some t)) :
    Alike (Reads output) (numbered num entries) ((entries.zip texts).map fun e => (e.1,
      some e.2)) := by
  induction entries generalizing texts num with
  | nil => exact .nil
  | cons e entries ih =>
    cases texts with
    | nil => cases same
    | cons t texts =>
      refine .cons ⟨rfl, .text pos (stored 0 t rfl)⟩ (ih (num + 1) (Nat.succ_pos _) ?_ ?_)
      · exact Nat.succ.inj same
      · intro j t at'
        rw [Nat.add_assoc, Nat.add_comm 1 j]
        exact stored (j + 1) t at'

theorem zip_self_map (entries : List (List Byte)) :
    (entries.map fun e => (e, some e)) = (entries.zip entries).map fun e => (e.1, some e.2) := by
  induction entries with
  | nil => rfl
  | cons e entries ih => exact congrArg (List.cons _) ih

/-- What the tables of a map say of its keys, for the last directive that has a key. -/
theorem Stored.alike {pre mid post : List Directive} {upper : List (List Byte)}
    (stored : Stored tab lower sets) (plainPre : ∀ d ∈ pre, d.Plain) (plainMid : ∀ d ∈ mid, d.Plain)
    (plainPost : ∀ d ∈ post, d.Plain) (same : lower.length = upper.length) :
    Alike (Reads tab.output)
      (pre.flatMap targets ++ (numbered chrBase lower ++
        (mid.flatMap targets ++ (numbered chrBase upper ++
          post.flatMap targets))))
      ((pre ++ .lowercase lower :: (mid ++ .uppercase upper :: post)).flatMap
        (texts lower)) := by
  have five : 0 < chrBase := Nat.succ_pos _
  rw [flatMap_append, flatMap_cons, flatMap_append, flatMap_cons]
  refine rel_append (stored.plain_alike plainPre) (rel_append ?_
    (rel_append (stored.plain_alike plainMid) (rel_append ?_
      (stored.plain_alike plainPost))))
  · rw [texts, zip_self_map]
    exact numbered_alike chrBase five rfl stored.entry
  · exact numbered_alike chrBase five same.symm stored.entry

section

variable {R : List Byte → Option (List Byte) → Prop} {f : List Byte → Option (List Byte)}
  {g : List Byte → Option (Option (List Byte))} {s : List Byte}

theorem noFront_of_rel (rel : ∀ p, Option.Rel R (f p) (g p)) (none : NoPart g s) : NoFront f s := by
  intro n within
  have here := rel (s.take n)
  rw [none n within] at here
  generalize f (s.take n) = value at here ⊢
  cases here
  rfl

theorem longest_of_rel (rel : ∀ p, Option.Rel R (f p) (g p)) {n : Nat} {t : List Byte}
    (longest : LongestFront g s n (some t)) :
    ∃ target, LongestFront f s n target ∧ R target (some t) := by
  have here := rel (s.take n)
  rw [longest.here] at here
  cases value : f (s.take n) with
  | none =>
    rw [value] at here
    cases here
  | some target =>
    rw [value] at here
    cases here with
    | some related =>
      refine ⟨target, ⟨longest.le, value, fun m less within => ?_⟩, related⟩
      have nothing := rel (s.take m)
      rw [longest.longer m less within] at nothing
      generalize f (s.take m) = other at nothing ⊢
      cases nothing
      rfl

end

variable {lower : List (List Byte)}

theorem keyOf_rel {R : List Byte → Option (List Byte) → Prop}
    (alike : Alike R sets (ds.flatMap (texts lower)))
    (p : List Byte) : Option.Rel R (keyOf sets p) (textOf lower ds p) := by
  unfold keyOf textOf
  split
  · exact .none
  · exact lastOf_alike alike p

theorem anchoredOf_rel {R : List Byte → Option (List Byte) → Prop}
    (alike : Alike R sets (ds.flatMap (texts lower)))
    (p : List Byte) : Option.Rel R (anchoredOf sets p) (anchoredText lower ds p) := by
  unfold anchoredOf anchoredText
  split
  · exact .none
  · exact lastOf_alike alike (chrFieldBegin :: p)

theorem Stored.part_mapped (stored : Stored tab lower sets)
    (alike : Alike (Reads tab.output) sets (ds.flatMap (texts lower))) {s t : List Byte}
    {first : Bool} {n : Nat} (part : Part (textOf lower ds) (anchoredText lower ds) s first t n) :
    ∃ target, Mapped (keyOf sets) (anchoredOf sets) s first target n ∧
      Reads tab.output target (some t) := by
  have noFront (noPart : first = true → NoPart (anchoredText lower ds) s) :
      first = true → NoFront (anchoredOf sets) s :=
    fun field => noFront_of_rel (anchoredOf_rel alike) (noPart field)
  cases part with
  | anchored longest =>
    obtain ⟨target, found, reads⟩ := longest_of_rel (anchoredOf_rel alike) longest
    exact ⟨target, .anchored found, reads⟩
  | longest noAnchored longest =>
    obtain ⟨target, found, reads⟩ := longest_of_rel (keyOf_rel alike) longest
    exact ⟨target, .longest (noFront noAnchored) found, reads⟩
  | unknown noAnchored noKey =>
    exact ⟨chrUnknown, .unknown (noFront noAnchored) (noFront_of_rel (keyOf_rel alike) noKey),
      .text Nat.one_pos stored.unknown⟩

theorem Part.pos {s t : List Byte} {first : Bool}
    {n : Nat} (part : Part (textOf lower ds) (anchoredText lower ds) s first t n) : 0 < n := by
  cases part with
  | anchored longest =>
    refine Nat.pos_of_ne_zero fun zero => ?_
    subst zero
    cases longest.here
  | longest _ longest =>
    refine Nat.pos_of_ne_zero fun zero => ?_
    subst zero
    cases longest.here
  | unknown => exact Nat.one_pos

/-- The translations of an input are read back as its canonical form, as far as the word goes. -/
theorem Stored.translate_untrans (stored : Stored tab lower sets)
    (alike : Alike (Reads tab.output) sets (ds.flatMap (texts lower))) {s text : List Byte}
    {first : Bool} (canonical : Canonical (textOf lower ds) (anchoredText lower ds) first s text)
    (fuel : Nat) (enough : s.length ≤ fuel) :
    ∃ codes, translate tab.input fuel first s = some codes ∧
      ∀ dst, zebraTermUntrans tab.output dst codes =
        some (dst ++ text.take (maxWord - dst.length)) := by
  induction canonical generalizing fuel with
  | nil =>
    refine ⟨[], by rw [translate], fun dst => ?_⟩
    rw [take_nil, append_nil, zebraTermUntrans]
  | @part first s t rest n nonempty part _ ih =>
    obtain ⟨target, mapped, reads⟩ := stored.part_mapped alike part
    obtain ⟨target', n', found, -, mapped'⟩ := chrMapInput_mapped sets nonempty first
    obtain ⟨rfl, rfl⟩ := mapped.unique mapped'
    have pos := part.pos
    cases s with
    | nil => exact absurd rfl nonempty
    | cons c s =>
      cases fuel with
      | zero => exact absurd enough (Nat.not_succ_le_zero _)
      | succ fuel =>
        rw [length_cons] at enough
        obtain ⟨codes, rest_codes, untrans⟩ := ih fuel (by
          rw [length_drop, length_cons]
          omega)
        refine ⟨target ++ codes, ?_, fun dst => ?_⟩
        · rw [translate, stored.input, found, bind_some, ← stored.input, rest_codes,
            map_some]
        · cases reads with
          | text pos output =>
            rw [singleton_append, zebraTermUntrans, if_neg (Nat.ne_of_gt pos), output]
            dsimp only
            rw [untrans, take_append, append_assoc, length_append,
              length_take]
            congr 4
            omega

/-- A map with a directive for each case, of the same length, whose entries all fit in the output
table: an input that is translated comes back with each of its longest entries in lower case, each
space as a blank and each character of no entry as `@`. -/
theorem untrans_canonical {pre mid post : List Directive} {lower upper : List (List Byte)}
    (plainPre : ∀ d ∈ pre, d.Plain) (plainMid : ∀ d ∈ mid, d.Plain)
      (plainPost : ∀ d ∈ post, d.Plain)
    (same : lower.length = upper.length) (fits : 2 * chrBase + 2 * lower.length ≤ 256)
      {first : Bool}
    {s text : List Byte}
    (canonical : Canonical
      (textOf lower (pre ++ .lowercase lower :: (mid ++ .uppercase upper :: post)))
      (anchoredText lower (pre ++ .lowercase lower :: (mid ++ .uppercase upper :: post)))
      first s text) :
    ∃ tab codes,
      chrmaptabCreate (pre ++ .lowercase lower :: (mid ++ .uppercase upper :: post)) = some tab ∧
      translate tab.input s.length first s = some codes ∧
      zebraTermUntrans tab.output [] codes = some (text.take maxWord) := by
  obtain ⟨tab, created, stored⟩ :=
    chrmaptabCreate_stored plainPre plainMid plainPost same fits
  obtain ⟨codes, translated, untrans⟩ := stored.translate_untrans
    (stored.alike plainPre plainMid plainPost same) canonical s.length le_rfl
  exact ⟨tab, codes, created, translated, untrans []⟩

theorem canonical_upper :
    Canonical (textOf [[97]] [.space [[32]], .lowercase [[97]], .uppercase [[65]]])
      (anchoredText [[97]] [.space [[32]], .lowercase [[97]], .uppercase [[65]]]) false [65]
        [97] := by
  refine @Canonical.part _ _ _ _ [97] [] 1 (cons_ne_nil _ _) (.longest ?_ ?_) .nil
  · exact fun field => Bool.noConfusion field
  · exact ⟨le_rfl, rfl, fun m more within => absurd within (Nat.not_le_of_lt more)⟩

theorem untrans_canonical_upper :
    ∃ tab codes,
      chrmaptabCreate [.space [[32]], .lowercase [[97]], .uppercase [[65]]] = some tab ∧
      translate tab.input 1 false [65] = some codes ∧
      zebraTermUntrans tab.output [] codes = some (([97] : List Byte).take maxWord) := by
  refine @untrans_canonical [.space [[32]]] [] [] [[97]] [[65]] ?_ ?_ ?_ rfl (by decide) _ _ _
    canonical_upper
  · intro d mem
    rw [mem_singleton.mp mem]
    trivial
  · exact forall_mem_nil _
  · exact forall_mem_nil _

def MadeOf (entries : List (List Byte)) (s : List Byte) : Prop :=
  ∃ parts : List (List Byte), (∀ p ∈ parts, p ∈ entries) ∧ s = parts.flatten

/-- The map of the entries `a`, `ab` and `bc`. -/
def overlapping : List Directive :=
  [.lowercase [[97], [97, 98], [98, 99]], .uppercase [[65], [65, 66], [66, 67]], .space [[32]]]

/-- The longest front of `abc` is `ab`, and no entry is `c`. -/
theorem canonical_overlapping :
    Canonical (textOf [[97], [97, 98], [98, 99]] overlapping)
      (anchoredText [[97], [97, 98], [98, 99]] overlapping) false [97, 98, 99] [97, 98, 64] := by
  refine @Canonical.part _ _ _ _ [97, 98] [64] 2 (cons_ne_nil _ _) (.longest ?_ ?_)
    (@Canonical.part _ _ _ _ [64] [] 1 (cons_ne_nil _ _) (.unknown ?_ ?_) .nil)
  · exact fun field => Bool.noConfusion field
  · refine ⟨by decide, rfl, fun m more within => ?_⟩
    obtain rfl : m = 3 := Nat.le_antisymm within more
    rfl
  · exact fun field => Bool.noConfusion field
  · intro n within
    rcases Nat.le_one_iff_eq_zero_or_eq_one.mp within with rfl | rfl
    · rfl
    · rfl

/-- `abc` is made of the entries `a` and `bc`, but it comes back as `ab@`, although no entry in
upper case is in it. -/
theorem not_untrans_canonical :
    ¬ ∀ (lower upper spaces : List (List Byte)) (s : List Byte), lower.length = upper.length →
      chrBase + 2 * lower.length ≤ 256 → MadeOf (lower ++ upper ++ spaces) s →
      (∀ e ∈ upper, ¬ e <:+: s) →
      ∃ tab codes,
        chrmaptabCreate [.lowercase lower, .uppercase upper, .space spaces] = some tab ∧
        translate tab.input s.length false s = some codes ∧
        zebraTermUntrans tab.output [] codes = some (s.take maxWord) := by
  intro canonical
  obtain ⟨tab, codes, created, translated, same⟩ := canonical [[97], [97, 98], [98, 99]]
    [[65], [65, 66], [66, 67]] [[32]] [97, 98,
      99] rfl (by decide) ⟨[[97], [98, 99]], by decide, rfl⟩
    (by decide)
  have none : ∀ d ∈ ([] : List Directive), d.Plain := forall_mem_nil _
  have space : ∀ d ∈ [Directive.space [[32]]], d.Plain := by
    intro d mem
    rw [mem_singleton.mp mem]
    trivial
  obtain ⟨tab', created', stored⟩ := @chrmaptabCreate_stored _ _ _ [[97], [97, 98], [98, 99]]
    [[65], [65, 66], [66, 67]] none none space rfl (by decide)
  obtain rfl : tab = tab' := some.inj (created.symm.trans created')
  obtain ⟨codes', translated', untrans⟩ :=
    stored.translate_untrans (stored.alike none none space rfl) canonical_overlapping 3 le_rfl
  obtain rfl : codes = codes' := some.inj (translated.symm.trans translated')
  have wrong := same.symm.trans (untrans [])
  revert wrong
  decide

end Zebra.CharMap
