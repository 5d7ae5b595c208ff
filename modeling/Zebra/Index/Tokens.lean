import Zebra.Util.CharMap

/-!
# Tokens of a field

`extract.c`: the text of a field is mapped character by character, `zebra_maps_input`, and cut into
words where it maps to a space.  The loops are there twice: `extract_token_add` makes keys of the
words, and `snippet_token_add` makes snippets of what they are in the text.

A null `map` is none, and the text is what is left of it from a pointer on.  `remain` is 0 exactly
when `map` is null, so that a test of the one is a test of the other.
-/

namespace Zebra.Tokens

open CharMap

def itMaxWord : Nat := 512

def firstInFieldStr : List Byte := [1, 94]

/-- The types of a `zebra_map_t` that is not for ICU. -/
inductive MapType where
  | index
  | sort
  | staticrank
  deriving DecidableEq

/-- `struct zebra_map`; the character map by its keys and their targets. -/
structure ZebraMap where
  type : MapType
  completeness : Bool
  alwaysmatches : Bool
  firstInField : Bool
  maptab : Option (List (List Byte × List Byte))

/-- `zinfo_index_category_t` -/
inductive Category where
  | index
  | alwaysmatches
  | sort
  deriving DecidableEq

/-- `RecWord`; `index_name` is not null. -/
structure RecWord where
  indexType : List Byte
  indexName : List Byte
  termBuf : List Byte
  seqno : Int
  segment : Int
  recordId : Int
  sectionId : Int

/-- What both find in the register. -/
structure Context where
  /-- `zebra_map_get_or_add` -/
  zebraMaps : List Byte → ZebraMap
  /-- `zebraExplain_lookup_attr_str`, with what `zebraExplain_add_attr_str` has added. -/
  attrStr : Category → List Byte → List Byte → Int
  segmentIndexing : Bool

/-- `zebra_maps_input`: the first string of the map and the rest; none where it aborts. -/
def zebraMapsInput (zm : ZebraMap) (from' : List Byte) (first : Bool) :
    Option (List Byte × List Byte) :=
  match zm.maptab with
  | some sets => chrMapInput (mapInput sets) from' first
  | none =>
    match from' with
    | [] => none
    | c :: from' => some (if c = 0 then [] else [c], from')

/-- A step of the loops: `map` is read if anything remains and null otherwise.  It never aborts,
`zebraMapsInput_some`. -/
def nextMap (zm : ZebraMap) (b : List Byte) (first : Bool) : Option (List Byte) × List Byte :=
  if b = [] then (none, b)
  else
    match zebraMapsInput zm b first with
    | some (map, b) => (some map, b)
    | none => (none, b)

/-- `**map == *CHR_SPACE` -/
def isSpace (map : List Byte) : Bool := map.head? = chrSpace.head?

/-- `**map == *CHR_CUT` -/
def isCut (map : List Byte) : Bool := map.head? = chrCut.head?

/-- The characters that are left, the one in `map` among them. -/
def left (map : Option (List Byte)) (b : List Byte) : Nat := b.length + if map.isSome then 1 else 0

theorem Mapped.pos {sets : List (List Byte × List Byte)} {s target : List Byte} {first : Bool}
    {n : Nat} (mapped : Mapped (keyOf sets) (anchoredOf sets) s first target n) : 0 < n := by
  cases mapped with
  | anchored longest =>
    apply Nat.pos_of_ne_zero
    rintro rfl
    cases longest.here
  | longest _ longest =>
    apply Nat.pos_of_ne_zero
    rintro rfl
    cases longest.here
  | unknown => exact Nat.zero_lt_one

/-- There is always something that the beginning of a text is mapped to. -/
theorem zebraMapsInput_some (zm : ZebraMap) {b : List Byte} (nonempty : b ≠ []) (first : Bool) :
    ∃ map n, zebraMapsInput zm b first = some (map, b.drop n) ∧ 0 < n ∧ n ≤ b.length := by
  unfold zebraMapsInput
  cases zm.maptab with
  | some sets =>
    obtain ⟨map, n, result, within, mapped⟩ := chrMapInput_mapped sets nonempty first
    exact ⟨map, n, result, Mapped.pos mapped, within⟩
  | none =>
    cases b with
    | nil => exact absurd rfl nonempty
    | cons c b => exact ⟨_, 1, rfl, Nat.zero_lt_one, Nat.succ_le_succ (Nat.zero_le _)⟩

theorem nextMap_nil (zm : ZebraMap) (first : Bool) : nextMap zm [] first = (none, []) := rfl

theorem nextMap_some (zm : ZebraMap) {b : List Byte} (nonempty : b ≠ []) (first : Bool) :
    ∃ map n, nextMap zm b first = (some map, b.drop n) ∧ 0 < n ∧ n ≤ b.length := by
  obtain ⟨map, n, result, pos, within⟩ := zebraMapsInput_some zm nonempty first
  refine ⟨map, n, ?_, pos, within⟩
  rw [nextMap, if_neg nonempty, result]

theorem left_nextMap (zm : ZebraMap) (b : List Byte) (first : Bool) (map : List Byte) :
    left (nextMap zm b first).1 (nextMap zm b first).2 < left (some map) b := by
  by_cases empty : b = []
  · subst empty
    exact Nat.zero_lt_one
  · obtain ⟨next, n, result, pos, within⟩ := nextMap_some zm empty first
    rw [result, left, left, List.length_drop]
    simp only [Option.isSome_some, if_true]
    omega

def skipSpaces (zm : ZebraMap) (first : Bool) (map : Option (List Byte)) (b : List Byte) :
    Option (List Byte) × List Byte :=
  match map with
  | none => (none, b)
  | some map =>
    if isSpace map then
      let next := nextMap zm b first
      skipSpaces zm first next.1 next.2
    else (some map, b)
termination_by left map b
decreasing_by exact left_nextMap zm b first map

/-- The loop over spaces with `last`. -/
def skipSpacesLast (zm : ZebraMap) (map : Option (List Byte)) (b last : List Byte) :
    Option (List Byte) × List Byte × List Byte :=
  match map with
  | none => (none, b, last)
  | some map =>
    if isSpace map then
      let next := nextMap zm b false
      skipSpacesLast zm next.1 next.2 b
    else (some map, b, last)
termination_by left map b
decreasing_by exact left_nextMap zm b false map

/-- The loop over a word of an incomplete field, with the word. -/
def readWord (zm : ZebraMap) (map : Option (List Byte)) (b buf : List Byte) :
    Option (List Byte) × List Byte × List Byte :=
  match map with
  | none => (none, b, buf)
  | some map =>
    if isSpace map then (some map, b, buf)
    else
      let next := nextMap zm b false
      readWord zm next.1 next.2 (buf ++ map.take (itMaxWord - buf.length))
termination_by left map b
decreasing_by exact left_nextMap zm b false map

/-- The loop over a word with `last`. -/
def passWord (zm : ZebraMap) (map : Option (List Byte)) (b last : List Byte) :
    Option (List Byte) × List Byte × List Byte :=
  match map with
  | none => (none, b, last)
  | some map =>
    if isSpace map then (some map, b, last)
    else
      let next := nextMap zm b false
      passWord zm next.1 next.2 b
termination_by left map b
decreasing_by exact left_nextMap zm b false map

def completeWord (zm : ZebraMap) (map : Option (List Byte)) (b buf : List Byte) :
    Option (List Byte) × List Byte × List Byte :=
  match map with
  | none => (none, b, buf)
  | some map =>
    if isSpace map then (some map, b, buf)
    else if isCut map then
      let next := nextMap zm b false
      completeWord zm next.1 next.2 []
    else if itMaxWord ≤ buf.length then (some map, b, buf)
    else
      let next := nextMap zm b false
      completeWord zm next.1 next.2 (buf ++ map.take (itMaxWord - buf.length))
termination_by left map b
decreasing_by
  · exact left_nextMap zm b false map
  · exact left_nextMap zm b false map

theorem skipSpaces_left (zm : ZebraMap) (first : Bool) (map : Option (List Byte)) (b : List Byte) :
    left (skipSpaces zm first map b).1 (skipSpaces zm first map b).2 ≤ left map b := by
  fun_induction skipSpaces zm first map b with
  | case1 b => exact le_rfl
  | case2 b map space next ih => exact ih.trans (Nat.le_of_lt (left_nextMap zm b first map))
  | case3 b map word => exact le_rfl

theorem skipSpaces_word (zm : ZebraMap) (first : Bool) (map : Option (List Byte)) (b : List Byte) :
    ∀ map' ∈ (skipSpaces zm first map b).1, isSpace map' = false := by
  fun_induction skipSpaces zm first map b with
  | case1 b =>
    intro map' here
    cases here
  | case2 b map space next ih => exact ih
  | case3 b map word =>
    intro map' here
    cases here
    exact Bool.eq_false_iff.mpr word

theorem skipSpacesLast_skip (zm : ZebraMap) (map : Option (List Byte)) (b last : List Byte) :
    ((skipSpacesLast zm map b last).1, (skipSpacesLast zm map b last).2.1) =
      skipSpaces zm false map b := by
  fun_induction skipSpacesLast zm map b last with
  | case1 b last => rw [skipSpaces]
  | case2 b last map space next ih =>
    rw [skipSpaces, if_pos space]
    exact ih
  | case3 b last map word => rw [skipSpaces, if_neg word]

theorem readWord_left_le (zm : ZebraMap) (map : Option (List Byte)) (b buf : List Byte) :
    left (readWord zm map b buf).1 (readWord zm map b buf).2.1 ≤ left map b := by
  fun_induction readWord zm map b buf with
  | case1 b buf => exact le_rfl
  | case2 b buf map space => exact le_rfl
  | case3 b buf map word next ih => exact ih.trans (Nat.le_of_lt (left_nextMap zm b false map))

theorem readWord_left (zm : ZebraMap) {map : List Byte} (b buf : List Byte)
    (word : isSpace map = false) :
    left (readWord zm (some map) b buf).1 (readWord zm (some map) b buf).2.1 <
      left (some map) b := by
  rw [readWord, if_neg (Bool.eq_false_iff.mp word)]
  exact Nat.lt_of_le_of_lt (readWord_left_le zm _ _ _) (left_nextMap zm b false map)

theorem passWord_readWord (zm : ZebraMap) (map : Option (List Byte)) (b last buf : List Byte) :
    ((passWord zm map b last).1, (passWord zm map b last).2.1) =
      ((readWord zm map b buf).1, (readWord zm map b buf).2.1) := by
  fun_induction readWord zm map b buf generalizing last with
  | case1 b buf => rw [passWord]
  | case2 b buf map space => rw [passWord, if_pos space]
  | case3 b buf map word next ih =>
    rw [passWord, if_neg word]
    exact ih b

theorem passWord_left (zm : ZebraMap) {map : List Byte} (b last : List Byte)
    (word : isSpace map = false) :
    left (passWord zm (some map) b last).1 (passWord zm (some map) b last).2.1 <
      left (some map) b := by
  have same := passWord_readWord zm (some map) b last []
  rw [(Prod.mk.inj same).1, (Prod.mk.inj same).2]
  exact readWord_left zm b [] word

/-- Where the room is not used up, the loop over a word reads at least one character. -/
theorem completeWord_left (zm : ZebraMap) (map : Option (List Byte)) (b buf : List Byte) :
    left (completeWord zm map b buf).1 (completeWord zm map b buf).2.1 ≤ left map b := by
  fun_induction completeWord zm map b buf with
  | case1 b buf => exact le_rfl
  | case2 b buf map space => exact le_rfl
  | case3 b buf map word cut next ih => exact ih.trans (Nat.le_of_lt (left_nextMap zm b false map))
  | case4 b buf map word more full => exact le_rfl
  | case5 b buf map word more room next ih =>
    exact ih.trans (Nat.le_of_lt (left_nextMap zm b false map))

/-- A word of a complete field is read on, or the buffer is full. -/
theorem completeWord_progress (zm : ZebraMap) {map : List Byte} (b buf : List Byte)
    (word : isSpace map = false) :
    left (completeWord zm (some map) b buf).1 (completeWord zm (some map) b buf).2.1 <
        left (some map) b ∨
      (left (completeWord zm (some map) b buf).1 (completeWord zm (some map) b buf).2.1 =
          left (some map) b ∧
        itMaxWord ≤ (completeWord zm (some map) b buf).2.2.length) := by
  rw [completeWord, if_neg (Bool.eq_false_iff.mp word)]
  split
  · exact .inl (Nat.lt_of_le_of_lt (completeWord_left zm _ _ _) (left_nextMap zm b false map))
  · split
    · rename_i full
      exact .inr ⟨rfl, full⟩
    · exact .inl (Nat.lt_of_le_of_lt (completeWord_left zm _ _ _) (left_nextMap zm b false map))

/-- Each round of the loop over complete words reads on or fills the buffer. -/
theorem parse_complete_decreasing (zm : ZebraMap) (map : Option (List Byte)) (b buf : List Byte)
    (map' b' separated : List Byte) (room : buf.length < itMaxWord)
    (skipped : skipSpaces zm (buf = []) map b = (some map', b')) :
    left (completeWord zm (some map') b' separated).1
        (completeWord zm (some map') b' separated).2.1 +
        (if (completeWord zm (some map') b' separated).2.2.length < itMaxWord then 1 else 0) <
      left map b + if buf.length < itMaxWord then 1 else 0 := by
  have before := skipSpaces_left zm (buf = []) map b
  have word := skipSpaces_word zm (buf = []) map b
  rw [skipped] at before word
  rw [if_pos room]
  have before : left (some map') b' ≤ left map b := before
  rcases completeWord_progress zm b' separated (word map' rfl) with less | ⟨same, full⟩
  · have indicator : (if (completeWord zm (some map') b' separated).2.2.length < itMaxWord then 1
        else 0) ≤ 1 := by
      split
      · exact le_rfl
      · exact Nat.zero_le 1
    omega
  · rw [if_neg (Nat.not_lt_of_le full), same]
    exact Nat.lt_succ_of_le before

theorem incomplete_decreasing (zm : ZebraMap) (map : Option (List Byte)) (b map' b' : List Byte)
    (skipped : skipSpaces zm false map b = (some map', b')) :
    left (readWord zm (some map') b' []).1 (readWord zm (some map') b' []).2.1 < left map b := by
  have before := skipSpaces_left zm false map b
  have word := skipSpaces_word zm false map b
  rw [skipped] at before word
  exact Nat.lt_of_lt_of_le (readWord_left zm b' [] (word map' rfl)) before

theorem snippet_decreasing (zm : ZebraMap) (map : Option (List Byte))
    (b last map' b' last' : List Byte)
    (skipped : skipSpacesLast zm map b last = (some map', b', last')) :
    left (passWord zm (some map') b' last').1 (passWord zm (some map') b' last').2.1 <
      left map b := by
  have same := skipSpacesLast_skip zm map b last
  rw [skipped] at same
  have before := skipSpaces_left zm false map b
  have word := skipSpaces_word zm false map b
  rw [← same] at before word
  exact Nat.lt_of_lt_of_le (passWord_left zm b' last' (word map' rfl)) before

/-- The loop of `parse_complete_field`. -/
def parseCompleteLoop (zm : ZebraMap) (map : Option (List Byte)) (b buf : List Byte) : List Byte :=
  if _room : buf.length < itMaxWord then
    match _skipped : skipSpaces zm (buf = []) map b with
    | (none, _) => buf
    | (some map, b) =>
      let separated := if buf = [] then buf else buf ++ chrSpace
      let read := completeWord zm (some map) b separated
      parseCompleteLoop zm read.1 read.2.1 read.2.2
  else buf
termination_by left map b + if buf.length < itMaxWord then 1 else 0
decreasing_by exact parse_complete_decreasing zm _ _ buf _ _ _ _room _skipped

/-- `parse_complete_field`: what it leaves in the buffer. -/
def parseCompleteField (zm : ZebraMap) (termBuf : List Byte) : List Byte :=
  let next := nextMap zm termBuf true
  parseCompleteLoop zm next.1 next.2 []

/-- What the extraction of a field adds to the keys, to the sort keys or to the record. -/
inductive Added where
  | index (category : Category) (key : List Int) (string : List Byte)
  | sort (key : List Int) (string : List Byte)
  | staticrank (string : List Byte)

/-- The key of `extract_add_index_string`. -/
def indexKey (context : Context) (p : RecWord) (category : Category) : List Int :=
  [context.attrStr category p.indexType p.indexName, p.recordId, p.sectionId] ++
    (if context.segmentIndexing then [p.segment] else []) ++ [p.seqno]

def extractAddString (context : Context) (zm : ZebraMap) (p : RecWord) (string : List Byte) :
    List Added :=
  match zm.type with
  | .index =>
    .index .index (indexKey context p .index) string ::
      (if zm.alwaysmatches then
        [.index .alwaysmatches (indexKey context { p with seqno := 1 } .alwaysmatches) []]
      else [])
  | .sort =>
    [.sort [context.attrStr .sort p.indexType p.indexName, p.recordId, p.sectionId] string]
  | .staticrank => [.staticrank (string.take 39)]

def markFirst (context : Context) (zm : ZebraMap) (first : Bool) (p : RecWord) :
    List Added × RecWord :=
  if first && zm.firstInField then
    (extractAddString context zm p firstInFieldStr, { p with seqno := p.seqno + 1 })
  else ([], p)

/-- The loop of `extract_add_incomplete_field`. -/
def addIncompleteLoop (context : Context) (zm : ZebraMap) (map : Option (List Byte)) (b : List Byte)
    (first : Bool) (p : RecWord) : List Added × RecWord :=
  match _skipped : skipSpaces zm false map b with
  | (none, _) => ([], p)
  | (some map, b) =>
    let read := readWord zm (some map) b []
    if read.2.2 = [] then ([], p)
    else
      let marked := markFirst context zm first p
      let rest := addIncompleteLoop context zm read.1 read.2.1 false
        { marked.2 with seqno := marked.2.seqno + 1 }
      (marked.1 ++ extractAddString context zm marked.2 read.2.2 ++ rest.1, rest.2)
termination_by left map b
decreasing_by exact incomplete_decreasing zm _ _ _ _ _skipped

def extractAddIncompleteField (context : Context) (zm : ZebraMap) (p : RecWord) :
    List Added × RecWord :=
  let next := nextMap zm p.termBuf false
  addIncompleteLoop context zm next.1 next.2 true p

def extractAddCompleteField (context : Context) (zm : ZebraMap) (p : RecWord) :
    List Added × RecWord :=
  let buf := parseCompleteField zm p.termBuf
  if buf = [] then ([], p)
  else (extractAddString context zm p buf, { p with seqno := p.seqno + 1 })

/-- `extract_token_add`: what is added, and the word with its position. -/
def extractTokenAdd (context : Context) (p : RecWord) : List Added × RecWord :=
  let zm := context.zebraMaps p.indexType
  if zm.completeness then extractAddCompleteField context zm p
  else extractAddIncompleteField context zm p

structure SnippetWord where
  seqno : Int
  ws : Bool
  ord : Int
  term : List Byte

/-- `zebra_snippets_appendn` for the text from a pointer to a later one, unless they are the same or
the type is not for an index. -/
def appendBetween (zm : ZebraMap) (seqno : Int) (ws : Bool) (ord : Int) (start last : List Byte) :
    List SnippetWord :=
  if start.length ≠ last.length ∧ zm.type = .index then
    [⟨seqno, ws, ord, start.take (start.length - last.length)⟩]
  else []

/-- The word with the position for the marker of the first word. -/
def passMarker (zm : ZebraMap) (first : Bool) (p : RecWord) : RecWord :=
  if first && zm.firstInField then { p with seqno := p.seqno + 1 } else p

/-- The loop of `snippet_add_incomplete_field`. -/
def snippetIncompleteLoop (zm : ZebraMap) (ord : Int) (map : Option (List Byte))
    (b start last : List Byte) (first : Bool) (p : RecWord) : List SnippetWord × RecWord :=
  match _skipped : skipSpacesLast zm map b last with
  | (none, _, _) => ([], p)
  | (some map, b, last) =>
    let space := appendBetween zm p.seqno true ord start last
    let start := last
    let passed := passWord zm (some map) b last
    let last := passed.2.2
    if start.length = last.length then (space, p)
    else
      let marked := passMarker zm first p
      let rest := snippetIncompleteLoop zm ord passed.1 passed.2.1 last last false
        { marked with seqno := marked.seqno + 1 }
      (space ++ appendBetween zm marked.seqno false ord start last ++ rest.1, rest.2)
termination_by left map b
decreasing_by exact snippet_decreasing zm _ _ _ _ _ _ _skipped

def snippetAddIncompleteField (zm : ZebraMap) (ord : Int) (p : RecWord) :
    List SnippetWord × RecWord :=
  let next := nextMap zm p.termBuf false
  snippetIncompleteLoop zm ord next.1 next.2 p.termBuf p.termBuf true p

def snippetAddCompleteField (zm : ZebraMap) (ord : Int) (p : RecWord) :
    List SnippetWord × RecWord :=
  if parseCompleteField zm p.termBuf = [] then ([], p)
  else
    (if p.termBuf ≠ [] ∧ zm.type = .index then [⟨p.seqno, false, ord, p.termBuf⟩] else [],
      { p with seqno := p.seqno + 1 })

def snippetTokenAdd (context : Context) (p : RecWord) : List SnippetWord × RecWord :=
  let zm := context.zebraMaps p.indexType
  let ch := context.attrStr .index p.indexType p.indexName
  if zm.completeness then snippetAddCompleteField zm ch p else snippetAddIncompleteField zm ch p

/-- A record filter: it adds words, and where it goes on with the position that a word has been left
with, this may decide about all that follows. -/
inductive RecordFilter where
  | finish
  | tokenAdd (p : RecWord) (next : Int → RecordFilter)

/-- What a filter does with a `tokenAdd`: each word with what has been made of it and with the
position it has been left with. -/
def RecordFilter.extract {α : Type} (tokenAdd : RecWord → List α × RecWord) :
    RecordFilter → List (RecWord × List α × Int)
  | .finish => []
  | .tokenAdd p next =>
    (p, (tokenAdd p).1, (tokenAdd p).2.seqno) ::
      (next (tokenAdd p).2.seqno).extract tokenAdd

def RecordFilter.fields : List RecWord → Int → RecordFilter
  | [], _ => .finish
  | p :: ps, seqno => .tokenAdd { p with seqno } (RecordFilter.fields ps)

end Zebra.Tokens
