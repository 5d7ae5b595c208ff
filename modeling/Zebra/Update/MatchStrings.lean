import Mathlib.Logic.Equiv.List
import Zebra.Update.MatchSafety

/-!
# Which specifications identify records

The words of an attribute are put together without anything between them.  A specification tells
records apart if it has no attribute and not two variables, and does not if it has an attribute and
there is room for two words.
-/

namespace Zebra.Update

open List

namespace MatchSpec

/-- The words of a field of the record, in the order of its keys. -/
def fieldWords (env : Env) (reckeys : List RecKey) (name : List Byte) : List (List Byte) :=
  (reckeys.filter fun entry => entry.ord = attributeOrd env (name.take (tokenSize - 1))).map
    RecKey.str

/-- What an item stands for: the words of the record, or a single text. -/
def Item.parts (env : Env) (reckeys : List RecKey) : Item → List (List Byte)
  | .attr name => fieldWords env reckeys name
  | .var name => [(specSrc env (name.take (tokenSize - 1))).getD []]
  | .literal text _ => [text]
  | .wrong => []
  | .cutOff => []

/-- The match fields have no more words than `searchRecordKey` has room for. -/
def FewWords (env : Env) (reckeys : List RecKey) (spec : List Byte) : Prop :=
  ∀ name, .attr name ∈ items spec → (fieldWords env reckeys name).length ≤ wsLength

/-- Two records that get a string get the same one exactly if they agree in all items. -/
def Identifies (spec : List Byte) : Prop :=
  ∀ env reckeys env' reckeys' matchStr matchStr', FewWords env reckeys spec →
    FewWords env' reckeys' spec → getMatchFromSpec env reckeys spec = .ok matchStr →
    getMatchFromSpec env' reckeys' spec = .ok matchStr' →
      (matchStr = matchStr' ↔ ∀ i ∈ items spec, i.parts env reckeys = i.parts env' reckeys')

/-- The names of the variables that have values: `group`, `database`, `filename` and `type` -/
def specials : List (List Byte) :=
  [[103, 114, 111, 117, 112], [100, 97, 116, 97, 98, 97, 115, 101],
    [102, 105, 108, 101, 110, 97, 109, 101], [116, 121, 112, 101]]

/-- The variables that have values are all the same one. -/
def OneVariable (is : List Item) : Prop :=
  ∀ name name', .var name ∈ is → .var name' ∈ is → name.take (tokenSize - 1) ∈ specials →
    name'.take (tokenSize - 1) ∈ specials →
    name.take (tokenSize - 1) = name'.take (tokenSize - 1)

/-- The length of the text of an item if its attribute has two characters and its variable none. -/
def Item.least : Item → Nat
  | .attr _ => 4
  | .var _ => 1
  | .literal text _ => text.length + 1
  | .wrong => 0
  | .cutOff => 0

/-- There is a string for records with two characters in each field. -/
structure Roomy (is : List Item) : Prop where
  right : .wrong ∉ is
  whole : .cutOff ∉ is
  short : ∀ i ∈ is, i.long = false
  fits : (is.map Item.least).sum < dstSize

variable {env env' : Env} {reckeys reckeys' : List RecKey} {is : List Item} {spec : List Byte}

theorem getMatchFromSpec_ok {matchStr : List Byte}
    (done : getMatchFromSpec env reckeys spec = .ok matchStr) :
    matchStr = textOf env reckeys (items spec) := by
  by_cases harmless : Harmless env reckeys (reached env reckeys (items spec)) dstSize
  · rw [getMatchFromSpec_harmless harmless] at done
    split at done
    · split at done
      · cases done
        rfl
      · cases done
    · cases done
  · obtain ⟨stop, failed, -⟩ := eval_harmful [] (Nat.zero_le _) harmless
    rw [getMatchFromSpec_items, failed] at done
    cases done

theorem length_textOf_le
    (shorter : ∀ i ∈ is, (i.text env reckeys).length ≤ (i.text env' reckeys').length) :
    (textOf env reckeys is).length ≤ (textOf env' reckeys' is).length := by
  induction is with
  | nil => exact le_rfl
  | cons i is ih =>
    rw [textOf_cons, textOf_cons, length_append, length_append]
    exact Nat.add_le_add (shorter i mem_cons_self)
      (ih fun i' mem => shorter i' (mem_cons_of_mem i mem))

/-- Where no text is longer than the other record's, one string means the same texts. -/
theorem texts_eq (shorter : ∀ i ∈ is, (i.text env reckeys).length ≤ (i.text env' reckeys').length)
    (same : textOf env reckeys is = textOf env' reckeys' is) :
    ∀ i ∈ is, i.text env reckeys = i.text env' reckeys' := by
  induction is with
  | nil => exact fun i mem => absurd mem not_mem_nil
  | cons i is ih =>
    have later : ∀ i' ∈ is, (i'.text env reckeys).length ≤ (i'.text env' reckeys').length :=
      fun i' mem => shorter i' (mem_cons_of_mem i mem)
    rw [textOf_cons, textOf_cons] at same
    have lengths := congrArg length same
    rw [length_append, length_append] at lengths
    have first := shorter i mem_cons_self
    have rest := length_textOf_le later
    obtain ⟨here, behind⟩ := append_inj same (by omega)
    intro i' mem
    rcases mem_cons.mp mem with rfl | mem
    · exact here
    · exact ih later behind i' mem

theorem text_parts {i : Item} (plain : ∀ name, i ≠ .attr name) :
    i.text env reckeys = (i.parts env reckeys).flatten ++ [1] := by
  cases i with
  | attr name => exact absurd rfl (plain name)
  | var name =>
    rw [Item.parts, flatten_singleton]
    rfl
  | literal text closed =>
    rw [Item.parts, flatten_singleton]
    rfl
  | wrong => rfl
  | cutOff => rfl

theorem parts_eq_of_text {i : Item} (plain : ∀ name, i ≠ .attr name)
    (same : i.text env reckeys = i.text env' reckeys') :
    i.parts env reckeys = i.parts env' reckeys' := by
  rw [text_parts plain, text_parts plain] at same
  have flat := append_cancel_right same
  cases i with
  | attr name => exact absurd rfl (plain name)
  | var name =>
    rw [Item.parts, Item.parts, flatten_singleton, flatten_singleton] at flat
    rw [Item.parts, Item.parts, flat]
  | literal text closed => rfl
  | wrong => rfl
  | cutOff => rfl

/-- A variable of another name has no value. -/
theorem specSrc_of_notMem (env : Env) {special : List Byte} (other : special ∉ specials) :
    specSrc env special = none := by
  simp only [specials, mem_cons, not_mem_nil, or_false, not_or] at other
  obtain ⟨group, database, filename, type⟩ := other
  rw [specSrc, if_neg group, if_neg database, if_neg filename, if_neg type]

/-- With one variable the texts of one record are no longer than those of the other. -/
theorem lengths_comparable (env env' : Env) (reckeys reckeys' : List RecKey)
    (plain : ∀ name, .attr name ∉ is) (one : OneVariable is) :
    (∀ i ∈ is, (i.text env reckeys).length ≤ (i.text env' reckeys').length) ∨
      ∀ i ∈ is, (i.text env' reckeys').length ≤ (i.text env reckeys).length := by
  have others (e e' : Env) (k k' : List RecKey)
      (vars : ∀ name, .var name ∈ is →
        ((Item.var name).text e k).length ≤ ((Item.var name).text e' k').length) :
      ∀ i ∈ is, (i.text e k).length ≤ (i.text e' k').length := by
    intro i mem
    cases i with
    | attr name => exact absurd mem (plain name)
    | var name => exact vars name mem
    | literal text closed => exact le_rfl
    | wrong => exact le_rfl
    | cutOff => exact le_rfl
  -- the text of a variable without a value is the same for all records
  have fixed (e e' : Env) (k k' : List RecKey) {name : List Byte}
      (other : name.take (tokenSize - 1) ∉ specials) :
      (Item.var name).text e k = (Item.var name).text e' k' := by
    rw [Item.text, Item.text, Item.value, Item.value, specSrc_of_notMem e other,
      specSrc_of_notMem e' other]
  by_cases some : ∃ name, .var name ∈ is ∧ name.take (tokenSize - 1) ∈ specials
  · obtain ⟨name, mem, special⟩ := some
    have alike (e : Env) (k : List RecKey) (name' : List Byte) (mem' : .var name' ∈ is)
        (special' : name'.take (tokenSize - 1) ∈ specials) :
        (Item.var name').text e k = (Item.var name).text e k := by
      rw [Item.text, Item.text, Item.value, Item.value, one name' name mem' mem special' special]
    have vars (e e' : Env) (k k' : List RecKey)
        (less : ((Item.var name).text e k).length ≤ ((Item.var name).text e' k').length)
        (name' : List Byte) (mem' : .var name' ∈ is) :
        ((Item.var name').text e k).length ≤ ((Item.var name').text e' k').length := by
      by_cases special' : name'.take (tokenSize - 1) ∈ specials
      · rw [alike e k name' mem' special', alike e' k' name' mem' special']
        exact less
      · exact (congrArg length (fixed e e' k k' special')).le
    rcases Nat.le_total ((Item.var name).text env reckeys).length
      ((Item.var name).text env' reckeys').length with less | more
    · exact .inl (others env env' reckeys reckeys' (vars env env' reckeys reckeys' less))
    · exact .inr (others env' env reckeys' reckeys (vars env' env reckeys' reckeys more))
  · refine .inl (others env env' reckeys reckeys' fun name mem => ?_)
    exact (congrArg length (fixed env env' reckeys reckeys' fun special =>
      some ⟨name, mem, special⟩)).le

theorem identifies_of_plain (plain : ∀ name, .attr name ∉ items spec)
    (one : OneVariable (items spec)) : Identifies spec := by
  intro env reckeys env' reckeys' matchStr matchStr' _ _ done done'
  rw [getMatchFromSpec_ok done, getMatchFromSpec_ok done']
  have noAttribute {i : Item} (mem : i ∈ items spec) : ∀ name, i ≠ .attr name :=
    fun name same => plain name (same ▸ mem)
  constructor
  · intro same i mem
    apply parts_eq_of_text (noAttribute mem)
    rcases lengths_comparable env env' reckeys reckeys' plain one with shorter | longer
    · exact texts_eq shorter same i mem
    · exact (texts_eq longer same.symm i mem).symm
  · intro same
    unfold textOf
    apply flatMap_congr
    intro i mem
    rw [text_parts (noAttribute mem), text_parts (noAttribute mem), same i mem]

/-- `searchRecordKey` finds all words of the match fields. -/
def Gathered (env : Env) (reckeys : List RecKey) (is : List Item) : Prop :=
  ∀ name, .attr name ∈ is → attributeWords env reckeys name = fieldWords env reckeys name

/-- The records have as many words in each field, and words of the same lengths. -/
def CutAlike (env env' : Env) (reckeys reckeys' : List RecKey) (is : List Item) : Prop :=
  ∀ i ∈ is, (i.parts env reckeys).map List.length = (i.parts env' reckeys').map List.length

def Item.joinParts (parts : List (List Byte)) : Item → List Byte
  | .attr _ => (if parts = [] then [] else 32 :: parts.flatten) ++ [1]
  | .var _ => parts.flatten ++ [1]
  | .literal _ _ => parts.flatten ++ [1]
  | .wrong => parts.flatten ++ [1]
  | .cutOff => parts.flatten ++ [1]

open Item (parts joinParts)

theorem text_joinParts {i : Item} (gathered : Gathered env reckeys is) (mem : i ∈ is) :
    i.text env reckeys = i.joinParts (i.parts env reckeys) := by
  cases i with
  | attr name =>
    rw [Item.text, Item.value, gathered name mem, parts, joinParts]
    split
    · rfl
    · rfl
  | var name =>
    refine text_parts fun _ same => ?_
    cases same
  | literal text closed =>
    refine text_parts fun _ same => ?_
    cases same
  | wrong =>
    refine text_parts fun _ same => ?_
    cases same
  | cutOff =>
    refine text_parts fun _ same => ?_
    cases same

theorem joinParts_length (i : Item) {parts parts' : List (List Byte)}
    (alike : parts.map length = parts'.map length) :
    (i.joinParts parts).length = (i.joinParts parts').length := by
  have flat : parts.flatten.length = parts'.flatten.length := by
    rw [length_flatten, length_flatten, alike]
  have empty : parts = [] ↔ parts' = [] := by
    rw [← map_eq_nil_iff (f := length), alike, map_eq_nil_iff]
  cases i with
  | attr name =>
    rw [joinParts, joinParts, length_append, length_append]
    by_cases none : parts = []
    · rw [if_pos none, if_pos (empty.mp none)]
    · rw [if_neg none, if_neg fun none' => none (empty.mpr none')]
      simp only [length_cons, flat]
  | var name => simp only [joinParts, length_append, flat]
  | literal text closed => simp only [joinParts, length_append, flat]
  | wrong => simp only [joinParts, length_append, flat]
  | cutOff => simp only [joinParts, length_append, flat]

theorem joinParts_inj (i : Item) {parts parts' : List (List Byte)}
    (alike : parts.map length = parts'.map length)
    (same : i.joinParts parts = i.joinParts parts') : parts = parts' := by
  apply eq_iff_flatten_eq.mpr
  refine ⟨?_, alike⟩
  have empty : parts = [] ↔ parts' = [] := by
    rw [← map_eq_nil_iff (f := length), alike, map_eq_nil_iff]
  cases i with
  | attr name =>
    rw [joinParts, joinParts] at same
    by_cases none : parts = []
    · rw [none, empty.mp none]
    · rw [if_neg none, if_neg fun none' => none (empty.mpr none')] at same
      exact (cons.inj (append_cancel_right same)).2
  | var name => exact append_cancel_right same
  | literal text closed => exact append_cancel_right same
  | wrong => exact append_cancel_right same
  | cutOff => exact append_cancel_right same

theorem same_iff_of_cutAlike {matchStr matchStr' : List Byte}
    (gathered : Gathered env reckeys (items spec)) (gathered' : Gathered env' reckeys' (items spec))
    (alike : CutAlike env env' reckeys reckeys' (items spec))
    (done : getMatchFromSpec env reckeys spec = .ok matchStr)
    (done' : getMatchFromSpec env' reckeys' spec = .ok matchStr') :
    matchStr = matchStr' ↔ ∀ i ∈ items spec, i.parts env reckeys = i.parts env' reckeys' := by
  rw [getMatchFromSpec_ok done, getMatchFromSpec_ok done']
  constructor
  · intro same i mem
    apply joinParts_inj i (alike i mem)
    rw [← text_joinParts gathered mem, ← text_joinParts gathered' mem]
    apply texts_eq _ same i mem
    intro i mem
    rw [text_joinParts gathered mem, text_joinParts gathered' mem, joinParts_length i (alike i mem)]
  · intro same
    unfold textOf
    apply flatMap_congr
    intro i mem
    rw [text_joinParts gathered mem, text_joinParts gathered' mem, same i mem]

def wordKey (ord : Int) (str : List Byte) (seqno : Int) : RecKey where
  str
  key := [ord, 0, 0, seqno]

/-- Every name has an index of type `w` with an ordinal of its own, and the variables are empty. -/
def wordEnv : Env where
  lookupAttrStr := fun type name => if type = [119] then (Encodable.encode name : Nat) else -1
  group := some []
  database := []
  fname := []
  recordType := some []

def Item.attributeName : Item → Option (List Byte)
  | .attr name => some (name.take (tokenSize - 1))
  | .var _ => none
  | .literal _ _ => none
  | .wrong => none
  | .cutOff => none

def attributeNames (is : List Item) : List (List Byte) := (is.filterMap Item.attributeName).dedup

def apart (name : List Byte) : List RecKey :=
  [wordKey (attributeOrd wordEnv name) [97] 1, wordKey (attributeOrd wordEnv name) [98] 2]

def joined (name : List Byte) : List RecKey := [wordKey (attributeOrd wordEnv name) [97, 98] 1]

theorem attributeOrd_wordEnv (name : List Byte) :
    attributeOrd wordEnv name = (Encodable.encode name : Nat) := rfl

theorem foldl_noteKey_filter (ch : Int) (state : Int × List (Option (List Byte)))
    (reckeys : List RecKey) :
    reckeys.foldl (noteKey ch) state =
      (reckeys.filter fun entry => entry.ord = ch).foldl (noteKey ch) state := by
  induction reckeys generalizing state with
  | nil => rfl
  | cons entry reckeys ih =>
    rw [foldl_cons, filter_cons]
    by_cases own : entry.ord = ch
    · rw [if_pos (decide_eq_true own), foldl_cons]
      exact ih _
    · rw [if_neg (by simp [own]), noteKey, if_neg own]
      exact ih _

variable {name : List Byte}

theorem filter_flatMap {f : List Byte → List RecKey} {names : List (List Byte)}
    (own : ∀ name', ∀ entry ∈ f name', entry.ord = attributeOrd wordEnv name')
    (nodup : names.Nodup) (mem : name ∈ names) :
    (names.flatMap f).filter (fun entry => entry.ord = attributeOrd wordEnv name) = f name := by
  have other {name' : List Byte} (ne : name' ≠ name) :
      (f name').filter (fun entry => entry.ord = attributeOrd wordEnv name) = [] := by
    apply filter_eq_nil_iff.mpr
    intro entry here same
    apply ne
    have ords := (own name' entry here).symm.trans (of_decide_eq_true same)
    rw [attributeOrd_wordEnv, attributeOrd_wordEnv] at ords
    exact Encodable.encode_injective (Int.ofNat.inj ords)
  have none {names' : List (List Byte)} (absent : name ∉ names') :
      (names'.flatMap f).filter (fun entry => entry.ord = attributeOrd wordEnv name) = [] := by
    induction names' with
    | nil => rfl
    | cons name' names' ih =>
      rw [mem_cons, not_or] at absent
      rw [flatMap_cons, filter_append, other (Ne.symm absent.1), ih absent.2]
      rfl
  induction names with
  | nil => cases mem
  | cons name' names ih =>
    rw [nodup_cons] at nodup
    rw [flatMap_cons, filter_append]
    rcases mem_cons.mp mem with rfl | mem
    · rw [none nodup.1, append_nil]
      apply filter_eq_self.mpr
      intro entry here
      exact decide_eq_true (own name entry here)
    · have ne : name' ≠ name := by
        rintro rfl
        exact nodup.1 mem
      rw [other ne, ih nodup.2 mem]
      rfl

theorem mem_attributeNames (mem : .attr name ∈ is) :
    name.take (tokenSize - 1) ∈ attributeNames is :=
  mem_dedup.mpr (mem_filterMap.mpr ⟨.attr name, mem, rfl⟩)

theorem apart_ord (name : List Byte) :
    ∀ entry ∈ apart name, entry.ord = attributeOrd wordEnv name := by
  intro entry mem
  rcases mem_cons.mp mem with rfl | mem
  · rfl
  · obtain rfl := mem_singleton.mp mem
    rfl

theorem joined_ord (name : List Byte) :
    ∀ entry ∈ joined name, entry.ord = attributeOrd wordEnv name := by
  intro entry mem
  obtain rfl := mem_singleton.mp mem
  rfl

theorem noteKey_own (ch startSeq seqno : Int) (ws : List (Option (List Byte))) (str : List Byte) :
    noteKey ch (startSeq, ws) (wordKey ch str seqno) =
      (if startSeq = -1 then seqno else startSeq,
        if 0 ≤ seqno - (if startSeq = -1 then seqno else startSeq) ∧
            seqno - (if startSeq = -1 then seqno else startSeq) < wsLength then
          ws.set (seqno - (if startSeq = -1 then seqno else startSeq)).toNat (some str) else ws) :=
  if_pos rfl

theorem attributeWords_wordEnv {f : List Byte → List RecKey}
    (own : ∀ name', ∀ entry ∈ f name', entry.ord = attributeOrd wordEnv name')
    (mem : .attr name ∈ is) :
    attributeWords wordEnv ((attributeNames is).flatMap f) name =
        (((f (name.take (tokenSize - 1))).foldl
          (noteKey (attributeOrd wordEnv (name.take (tokenSize - 1))))
          (-1, replicate wsLength none)).2.filterMap id) ∧
      fieldWords wordEnv ((attributeNames is).flatMap f) name =
        (f (name.take (tokenSize - 1))).map RecKey.str := by
  have keys : ((attributeNames is).flatMap f).filter (fun entry =>
      entry.ord = attributeOrd wordEnv (name.take (tokenSize - 1))) = f
        (name.take (tokenSize - 1)) :=
    filter_flatMap own (nodup_dedup _) (mem_attributeNames mem)
  constructor
  · rw [attributeWords, searchRecordKey, attributeOrd_wordEnv,
      if_neg (Int.not_lt.mpr (Int.natCast_nonneg _)), foldl_noteKey_filter, ← attributeOrd_wordEnv,
      keys]
  · exact congrArg (map RecKey.str) keys

theorem words_apart (mem : .attr name ∈ is) :
    attributeWords wordEnv ((attributeNames is).flatMap apart) name = [[97], [98]] ∧
      fieldWords wordEnv ((attributeNames is).flatMap apart) name = [[97], [98]] := by
  obtain ⟨words, fields⟩ := attributeWords_wordEnv apart_ord mem
  refine ⟨?_, fields⟩
  rw [words, apart, foldl_cons, noteKey_own, foldl_cons, noteKey_own, foldl_nil]
  decide

theorem words_joined (mem : .attr name ∈ is) :
    attributeWords wordEnv ((attributeNames is).flatMap joined) name = [[97, 98]] ∧
      fieldWords wordEnv ((attributeNames is).flatMap joined) name = [[97, 98]] := by
  obtain ⟨words, fields⟩ := attributeWords_wordEnv joined_ord mem
  refine ⟨?_, fields⟩
  rw [words, joined, foldl_cons, noteKey_own, foldl_nil]
  decide

theorem specSrc_wordEnv (special : List Byte) : (specSrc wordEnv special).getD [] = [] := by
  unfold specSrc
  repeat' split
  all_goals rfl

/-- The text of an item with the characters "ab" in each field. -/
def Item.shortText : Item → List Byte
  | .attr _ => [32, 97, 98, 1]
  | .literal text _ => text ++ [1]
  | .var _ => [1]
  | .wrong => [1]
  | .cutOff => [1]

theorem text_wordEnv {i : Item} (mem : i ∈ is)
    (words : ∀ name, .attr name ∈ is → (attributeWords wordEnv reckeys name).flatten = [97, 98]) :
    i.text wordEnv reckeys = i.shortText := by
  cases i with
  | attr name =>
    have flat := words name mem
    have some : attributeWords wordEnv reckeys name ≠ [] := by
      intro none
      rw [none] at flat
      cases flat
    rw [text_attribute some, flat]
    rfl
  | var name =>
    rw [Item.text, Item.value, specSrc_wordEnv]
    rfl
  | literal text closed => rfl
  | wrong => rfl
  | cutOff => rfl

theorem string_wordEnv (roomy : Roomy (items spec)) (some : items spec ≠ [])
    (words : ∀ name, .attr name ∈ items spec →
      (attributeWords wordEnv reckeys name).flatten = [97, 98]) :
    getMatchFromSpec wordEnv reckeys spec = .ok (textOf wordEnv reckeys (items spec)) := by
  have all : reached wordEnv reckeys (items spec) = items spec := by
    apply takeWhile_eq_self_iff.mpr
    intro i mem
    cases i with
    | attr name =>
      have flat := words name mem
      have found : attributeWords wordEnv reckeys name ≠ [] := by
        intro none
        rw [none] at flat
        cases flat
      rw [Item.detected, decide_eq_false found]
      rfl
    | var name => rfl
    | literal text closed => rfl
    | wrong => exact absurd mem roomy.right
    | cutOff => rfl
  have length : (textOf wordEnv reckeys (items spec)).length =
      ((items spec).map Item.least).sum := by
    rw [textOf, length_flatMap]
    apply congrArg
    apply map_congr_left
    intro i mem
    rw [text_wordEnv mem words]
    cases i with
    | attr name => rfl
    | var name => rfl
    | literal text closed => exact length_append
    | wrong => exact absurd mem roomy.right
    | cutOff => exact absurd mem roomy.whole
  have fits := roomy.fits
  rw [← length] at fits
  have harmless : Harmless wordEnv reckeys (reached wordEnv reckeys (items spec)) dstSize := by
    rw [all]
    exact ⟨roomy.whole, roomy.short, Nat.le_of_lt fits⟩
  rw [getMatchFromSpec_harmless harmless, if_pos ⟨all, some⟩, if_pos fits]

/-- With an attribute and room for two characters in each field two different records get one
string. -/
theorem not_identifies_of_attribute (spec name : List Byte) (mem : .attr name ∈ items spec)
    (roomy : Roomy (items spec)) : ¬ Identifies spec := by
  intro identifies
  have some : items spec ≠ [] := ne_nil_of_mem mem
  have flatApart : ∀ name, .attr name ∈ items spec → (attributeWords wordEnv
      ((attributeNames (items spec)).flatMap apart) name).flatten = [97, 98] := by
    intro name' mem'
    rw [(words_apart mem').1]
    rfl
  have flatJoined : ∀ name, .attr name ∈ items spec → (attributeWords wordEnv
      ((attributeNames (items spec)).flatMap joined) name).flatten = [97, 98] := by
    intro name' mem'
    rw [(words_joined mem').1]
    rfl
  have same : textOf wordEnv ((attributeNames (items spec)).flatMap apart) (items spec) =
      textOf wordEnv ((attributeNames (items spec)).flatMap joined) (items spec) := by
    unfold textOf
    apply flatMap_congr
    intro i here
    rw [text_wordEnv here flatApart, text_wordEnv here flatJoined]
  have agree := (identifies wordEnv _ wordEnv _ _ _
    (fun name' mem' => by rw [(words_apart mem').2]; decide)
    (fun name' mem' => by rw [(words_joined mem').2]; decide)
    (string_wordEnv roomy some flatApart) (string_wordEnv roomy some flatJoined)).mp same _ mem
  rw [parts, parts, (words_apart mem).2, (words_joined mem).2] at agree
  cases agree

theorem items_filename : items [36, 102, 105, 108, 101, 110, 97, 109, 101] =
    [.var [102, 105, 108, 101, 110, 97, 109, 101]] := by
  rw [items_cons (c := 36) (s := [102, 105, 108, 101, 110, 97, 109, 101]) rfl]
  exact congrArg (Item.var _ :: ·) (items_nil rfl)

/-- `(a)` -/
theorem items_attribute : items [40, 97, 41] = [.attr [97]] := by
  rw [items_cons (c := 40) (s := [97, 41]) rfl]
  exact congrArg (Item.attr _ :: ·) (items_nil rfl)

theorem roomy_attribute : Roomy [.attr [97]] where
  right := by decide
  whole := by decide
  short := by decide
  fits := by decide

end MatchSpec

end Zebra.Update
