import Zebra.Index.Tokens

/-!
# Positions of snippets

Both ways to cut a field into words read it alike: the words of its snippets are those of its keys,
at the same positions.
-/

namespace Zebra

open List Option

namespace CharMap

variable {key anchored : List Byte → Option (List Byte)} {s target : List Byte} {n k : Nat}

theorem NoFront.take (none : NoFront key s) (k : Nat) : NoFront key (s.take k) := by
  intro m inside
  rw [length_take] at inside
  rw [take_take, Nat.min_eq_left (inside.trans (Nat.min_le_left _ _))]
  exact none m (inside.trans (Nat.min_le_right _ _))

/-- What an input is mapped to does not depend on what comes behind. -/
theorem Mapped.take {first : Bool} (mapped : Mapped key anchored s first target n)
    (within : n ≤ k) : Mapped key anchored (s.take k) first target n := by
  cases mapped with
  | anchored longest => exact .anchored (longest.take within)
  | longest noAnchored longest =>
    exact .longest (fun field => (noAnchored field).take k) (longest.take within)
  | unknown noAnchored noKey =>
    exact .unknown (fun field => (noAnchored field).take k) (noKey.take k)

end CharMap

namespace Tokens

open CharMap

variable {zm : ZebraMap}
variable {l map buf w l' g : List Byte}

theorem zebraMapsInput_take {n k : Nat} (nonempty : l ≠ [])
    (result : zebraMapsInput zm l false = some (map, l.drop n)) (inside : n ≤ l.length)
    (pos : 0 < n) (within : n ≤ k) :
    zebraMapsInput zm (l.take k) false = some (map, (l.take k).drop n) := by
  have front : l.take k ≠ [] := by
    rw [ne_eq, take_eq_nil_iff]
    rintro (zero | empty)
    · omega
    · exact nonempty empty
  unfold zebraMapsInput at result ⊢
  cases tab : zm.maptab with
  | some sets =>
    rw [tab] at result
    dsimp only at result ⊢
    obtain ⟨target, m, here, le, mapped⟩ := chrMapInput_mapped sets nonempty false
    rw [result] at here
    obtain ⟨rfl, rest⟩ := Prod.mk.inj (some.inj here)
    obtain rfl : n = m := by
      have lengths := congrArg List.length rest
      rw [length_drop, length_drop] at lengths
      omega
    obtain ⟨target', m', here', -, mapped'⟩ := chrMapInput_mapped sets front false
    obtain ⟨rfl, rfl⟩ := (mapped.take within).unique mapped'
    exact here'
  | none =>
    rw [tab] at result
    dsimp only at result ⊢
    cases l with
    | nil => exact absurd rfl nonempty
    | cons c l =>
      cases k with
      | zero => omega
      | succ k =>
        obtain ⟨rfl, rest⟩ := Prod.mk.inj (some.inj result)
        obtain rfl : n = 1 := by
          have lengths := congrArg List.length rest
          rw [length_drop, length_cons] at lengths
          rw [length_cons] at inside
          omega
        rfl

/-- What a text begins with is read alike where the text ends earlier. -/
theorem nextMap_take {n k : Nat}
    (next : nextMap zm l false = (some map, l.drop n)) (inside : n ≤ l.length) (pos : 0 < n)
    (within : n ≤ k) : nextMap zm (l.take k) false = (some map, (l.take k).drop n) := by
  have nonempty : l ≠ [] := by
    rintro rfl
    cases next
  have result : zebraMapsInput zm l false = some (map, l.drop n) := by
    rw [nextMap, if_neg nonempty] at next
    cases found : zebraMapsInput zm l false with
    | none =>
      rw [found] at next
      cases next
    | some read =>
      rw [found] at next
      obtain ⟨same, rest⟩ := Prod.mk.inj next
      rw [← some.inj same, ← rest]
  have front : l.take k ≠ [] := by
    rw [ne_eq, take_eq_nil_iff]
    rintro (zero | empty)
    · omega
    · exact nonempty empty
  rw [nextMap, if_neg front, zebraMapsInput_take nonempty result inside pos within]

def targets (zm : ZebraMap) (l : List Byte) : List (List Byte) :=
  match _next : nextMap zm l false with
  | (none, _) => []
  | (some map, b) => map :: targets zm b
termination_by l.length
decreasing_by
  have less := left_nextMap zm l false []
  rw [_next] at less
  exact Nat.lt_of_succ_lt_succ less

theorem targets_nil (zm : ZebraMap) : targets zm [] = [] := by
  rw [targets]
  rfl

theorem targets_some {b : List Byte} (next : nextMap zm l false = (some map, b)) :
    targets zm l = map :: targets zm b := by
  rw [targets]
  split
  · rename_i none
    rw [none] at next
    cases next
  · rename_i map' b' some
    rw [some] at next
    cases next
    rfl

/-- The words of a text: what it is mapped to between the spaces. -/
def words (zm : ZebraMap) (l : List Byte) : List (List (List Byte)) :=
  ((targets zm l).splitOnP isSpace).filter (· ≠ [])

theorem words_space {b : List Byte} (next : nextMap zm l false = (some map, b))
    (space : isSpace map = true) : words zm l = words zm b := by
  rw [words, targets_some next, splitOnP_cons_eq_if_modifyHead, if_pos space,
    filter_cons_of_neg]
  · rfl
  · simp

variable {ts : List (List Byte)}

theorem words_word {rest : List Byte} (nonempty : ts ≠ [])
    (eq : targets zm l = ts ++ targets zm rest) (word : ∀ t ∈ ts, isSpace t = false)
    (ended : ∀ map ∈ (nextMap zm rest false).1, isSpace map = true) :
    words zm l = ts :: words zm rest := by
  have first (rest : List (List (List Byte))) :
      (ts :: rest).filter (· ≠ []) = ts :: rest.filter (· ≠ []) :=
    filter_cons_of_pos (decide_eq_true nonempty)
  rw [words, eq]
  by_cases empty : rest = []
  · subst empty
    rw [targets_nil, append_nil, splitOnP_eq_singleton word, words, targets_nil,
      splitOnP_nil, first]
    rfl
  · obtain ⟨map, n, next, -⟩ := nextMap_some zm empty false
    rw [next] at ended
    rw [words_space next (ended map rfl), targets_some next,
      splitOnP_append_cons_of_forall_mem word map (ended map rfl), first]
    rfl

theorem take_append_room (buf map rest : List Byte) :
    (buf ++ map.take (itMaxWord - buf.length) ++ rest).take itMaxWord =
      (buf ++ (map ++ rest)).take itMaxWord := by
  have left := @List.take_append Byte buf (map ++ rest) itMaxWord
  have right := @List.take_append Byte map rest (itMaxWord - buf.length)
  rw [append_assoc, take_append, left, right, take_append, take_take,
    Nat.min_self, length_take]
  by_cases room : map.length ≤ itMaxWord - buf.length
  · rw [Nat.min_eq_right room]
  · rw [Nat.min_eq_left (by omega), Nat.sub_self, take_zero,
      Nat.sub_eq_zero_of_le (Nat.le_of_not_le room), take_zero]

/-- What the loops over a word do from the beginning of `l` on: they read `w` and stop at `l'`. -/
structure Span (zm : ZebraMap) (l buf w l' buf' : List Byte) (ts : List (List Byte)) : Prop where
  text : l = w ++ l'
  passed : passWord zm (nextMap zm l false).1 (nextMap zm l false).2 l =
    ((nextMap zm l' false).1, (nextMap zm l' false).2, l')
  read : readWord zm (nextMap zm l false).1 (nextMap zm l false).2 buf =
    ((nextMap zm l' false).1, (nextMap zm l' false).2, buf')
  alone : readWord zm (nextMap zm w false).1 (nextMap zm w false).2 buf = (none, [], buf')
  targets : targets zm l = ts ++ targets zm l'
  word : ∀ t ∈ ts, isSpace t = false
  ended : ∀ map ∈ (nextMap zm l' false).1, isSpace map = true
  filled : buf' = (buf ++ ts.flatten).take itMaxWord

theorem span_here (ended : ∀ map ∈ (nextMap zm l false).1, isSpace map = true)
    (within : buf.length ≤ itMaxWord) : Span zm l buf [] l buf [] where
  text := rfl
  passed := by
    cases map : (nextMap zm l false).1 with
    | none => rw [passWord]
    | some map' =>
      rw [map] at ended
      rw [passWord, if_pos (ended map' rfl)]
  read := by
    cases map : (nextMap zm l false).1 with
    | none => rw [readWord]
    | some map' =>
      rw [map] at ended
      rw [readWord, if_pos (ended map' rfl)]
  alone := by
    rw [nextMap_nil, readWord]
  targets := rfl
  word _ mem := absurd mem not_mem_nil
  ended := ended
  filled := by
    rw [flatten_nil, append_nil, take_of_length_le within]

theorem span_step {buf' : List Byte} {n : Nat}
    (next : nextMap zm l false = (some map, l.drop n)) (pos : 0 < n) (inside : n ≤ l.length)
    (word : isSpace map = false)
    (rest : Span zm (l.drop n) (buf ++ map.take (itMaxWord - buf.length)) w l' buf' ts) :
    Span zm l buf (l.take n ++ w) l' buf' (map :: ts) where
  text := by
    rw [append_assoc, ← rest.text, take_append_drop]
  passed := by
    rw [next, passWord, if_neg (Bool.eq_false_iff.mp word)]
    exact rest.passed
  read := by
    rw [next, readWord, if_neg (Bool.eq_false_iff.mp word)]
    exact rest.read
  alone := by
    have front : l.take n ++ w = l.take (n + w.length) := by
      rw [take_add, rest.text, take_left]
    have behind : (l.take n ++ w).drop n = w := by
      rw [drop_append, length_take, Nat.min_eq_left inside, Nat.sub_self, drop_zero,
        drop_eq_nil_of_le (length_take_le n l), nil_append]
    have short := nextMap_take next inside pos (Nat.le_add_right n w.length)
    rw [← front, behind] at short
    rw [short, readWord, if_neg (Bool.eq_false_iff.mp word)]
    exact rest.alone
  targets := by
    rw [targets_some next, rest.targets]
    rfl
  word t mem := by
    rcases mem_cons.mp mem with rfl | later
    · exact word
    · exact rest.word t later
  ended := rest.ended
  filled := by
    rw [rest.filled, flatten_cons, take_append_room]

theorem exists_span (zm : ZebraMap) (l buf : List Byte) (within : buf.length ≤ itMaxWord) :
    ∃ w l' buf' ts, Span zm l buf w l' buf' ts := by
  induction length : l.length using Nat.strong_induction_on generalizing l buf with
  | _ length' ih =>
    subst length
    by_cases ended : ∀ map ∈ (nextMap zm l false).1, isSpace map = true
    · exact ⟨[], l, buf, [], span_here ended within⟩
    · have nonempty : l ≠ [] := by
        rintro rfl
        apply ended
        intro map here
        cases here
      obtain ⟨map, n, next, pos, inside⟩ := nextMap_some zm nonempty false
      have word : isSpace map = false := by
        apply Bool.eq_false_iff.mpr
        intro space
        apply ended
        intro map' here
        rw [next] at here
        cases here
        exact space
      have room : (buf ++ map.take (itMaxWord - buf.length)).length ≤ itMaxWord := by
        rw [length_append, length_take]
        omega
      obtain ⟨w, l', buf', ts, rest⟩ := ih (l.drop n).length
        (by rw [length_drop]; omega) (l.drop n) _ room rfl
      exact ⟨_, l', buf', _, span_step next pos inside word rest⟩

/-- The loops over spaces stop at `l'`. -/
structure Gap (zm : ZebraMap) (l g l' : List Byte) : Prop where
  text : l = g ++ l'
  skipped : skipSpaces zm false (nextMap zm l false).1 (nextMap zm l false).2 = nextMap zm l' false
  skippedLast : skipSpacesLast zm (nextMap zm l false).1 (nextMap zm l false).2 l =
    ((nextMap zm l' false).1, (nextMap zm l' false).2, l')
  words : words zm l = words zm l'
  word : ∀ map ∈ (nextMap zm l' false).1, isSpace map = false

theorem gap_here (word : ∀ map ∈ (nextMap zm l false).1, isSpace map = false) : Gap zm l [] l where
  text := rfl
  skipped := by
    cases next : nextMap zm l false with
    | mk map b =>
      cases map with
      | none => rw [skipSpaces]
      | some map =>
        rw [next] at word
        rw [skipSpaces, if_neg (Bool.eq_false_iff.mp (word map rfl))]
  skippedLast := by
    cases next : nextMap zm l false with
    | mk map b =>
      cases map with
      | none => rw [skipSpacesLast]
      | some map =>
        rw [next] at word
        rw [skipSpacesLast, if_neg (Bool.eq_false_iff.mp (word map rfl))]
  words := rfl
  word := word

theorem exists_gap (zm : ZebraMap) (l : List Byte) : ∃ g l', Gap zm l g l' := by
  induction length : l.length using Nat.strong_induction_on generalizing l with
  | _ length' ih =>
    subst length
    by_cases empty : l = []
    · subst empty
      refine ⟨[], [], gap_here fun map here => ?_⟩
      cases here
    · obtain ⟨map, n, next, pos, inside⟩ := nextMap_some zm empty false
      cases space : isSpace map with
      | false =>
        refine ⟨[], l, gap_here fun map' here => ?_⟩
        rw [next] at here
        cases here
        exact space
      | true =>
        obtain ⟨g, l', rest⟩ := ih (l.drop n).length
          (by rw [length_drop]; omega) (l.drop n) rfl
        refine ⟨l.take n ++ g, l', ⟨?_, ?_, ?_, ?_, rest.word⟩⟩
        · rw [append_assoc, ← rest.text, take_append_drop]
        · rw [next, skipSpaces, if_pos space]
          exact rest.skipped
        · rw [next, skipSpacesLast, if_pos space]
          exact rest.skippedLast
        · rw [words_space next space]
          exact rest.words

def Added.posting : Added → Option (List Int × List Byte)
  | .index .index key string => some (key, string)
  | _ => none

def postings (added : List Added) : List (List Int × List Byte) := added.filterMap Added.posting

def shown (snippets : List SnippetWord) : List SnippetWord := snippets.filter fun w => !w.ws

def normalised (zm : ZebraMap) (text : List Byte) : Option (List Byte) :=
  if zm.completeness then some (parseCompleteField zm text)
  else
    let next := nextMap zm text false
    let read := readWord zm next.1 next.2 []
    if read.1.isNone then some read.2.2 else none

variable {context : Context} {p : RecWord}

/-- A snippet is for a posting: it has its index and its position, and its text is normalised to the
term. -/
structure Shows (context : Context) (zm : ZebraMap) (p : RecWord) (w : SnippetWord)
    (posting : List Int × List Byte) : Prop where
  ord : w.ord = context.attrStr .index p.indexType p.indexName
  key : posting.1 = indexKey context { p with seqno := w.seqno } .index
  term : normalised zm w.term = some posting.2

/-- The posting of the marker of the first word, where there is one. -/
def marker (context : Context) (p : RecWord) (marked : Bool) (shown : List SnippetWord) :
    List (List Int × List Byte) :=
  if marked ∧ shown ≠ [] then [(indexKey context p .index, firstInFieldStr)] else []

/-- The snippets of a field are its words in the postings, and follow one another in its text. -/
structure Sees (context : Context) (zm : ZebraMap) (p : RecWord) (marked : Bool) (text : List Byte)
    (added : List Added) (snippets : List SnippetWord) : Prop where
  words : ∃ terms, postings added = marker context p marked (shown snippets) ++ terms ∧
    List.Forall₂ (Shows context zm p) (shown snippets) terms
  text : (snippets.map SnippetWord.term).flatten <+: text

theorem postings_extractAddString (string : List Byte) :
    postings (extractAddString context zm p string) =
      if zm.type = .index then [(indexKey context p .index, string)] else [] := by
  unfold extractAddString
  cases zm.type with
  | index =>
    cases zm.alwaysmatches with
    | false => rfl
    | true => rfl
  | sort => rfl
  | staticrank => rfl

theorem postings_append (first second : List Added) :
    postings (first ++ second) = postings first ++ postings second :=
  filterMap_append

theorem Shows.seqno {w : SnippetWord} {posting : List Int × List Byte} {seqno : Int}
    (shows : Shows context zm { p with seqno } w posting) : Shows context zm p w posting where
  ord := shows.ord
  key := shows.key
  term := shows.term

variable {added : List Added}

/-- Where the type is not for an index, nothing is shown and there are no postings. -/
theorem sees_nothing {marked : Bool} {text : List Byte}
    (none : postings added = []) : Sees context zm p marked text added [] where
  words := by
    refine ⟨[], ?_, .nil⟩
    rw [none, marker, if_neg fun both => both.2 rfl]
    rfl
  text := nil_prefix

theorem markFirst_passMarker (first : Bool) :
    (markFirst context zm first p).2 = passMarker zm first p := by
  unfold markFirst passMarker
  split
  · rfl
  · rfl

theorem passMarker_eq (zm : ZebraMap) (p : RecWord) (first : Bool) :
    ∃ seqno, passMarker zm first p = { p with seqno } := by
  unfold passMarker
  split
  · exact ⟨_, rfl⟩
  · exact ⟨p.seqno, rfl⟩

theorem postings_markFirst (first : Bool) :
    postings (markFirst context zm first p).1 =
      if (first && zm.firstInField) ∧ zm.type = .index then
        [(indexKey context p .index, firstInFieldStr)] else [] := by
  unfold markFirst
  by_cases marked : (first && zm.firstInField) = true
  · rw [if_pos marked, postings_extractAddString]
    simp only [marked, true_and]
  · rw [if_neg marked, if_neg fun both => marked both.1]
    rfl

theorem appendBetween_append (seqno : Int) (ws : Bool) (ord : Int) (w l : List Byte) :
    appendBetween zm seqno ws ord (w ++ l) l =
      if w ≠ [] ∧ zm.type = .index then [⟨seqno, ws, ord, w⟩] else [] := by
  have front : (w ++ l).take ((w ++ l).length - l.length) = w := by
    rw [length_append, Nat.add_sub_cancel, take_left]
  have same : (w ++ l).length ≠ l.length ↔ w ≠ [] := by
    rw [length_append, ne_eq, Nat.add_eq_right, length_eq_zero_iff]
  rw [appendBetween, front]
  simp only [same]

/-- A round of both loops: they skip `g` and read the word `w`. -/
theorem incomplete_round (context : Context) (p : RecWord) {mid : List Byte} (ord : Int)
    (first : Bool) (gap : Gap zm l g mid) (span : Span zm mid [] w l' buf ts) (some : mid ≠ [])
    (nonempty : buf ≠ []) : w ≠ [] ∧
    (∃ rest, rest = addIncompleteLoop context zm
        (nextMap zm l' false).1 (nextMap zm l' false).2 false
        { passMarker zm first p with seqno := (passMarker zm first p).seqno + 1 } ∧
      addIncompleteLoop context zm (nextMap zm l false).1 (nextMap zm l false).2 first p =
        ((markFirst context zm first p).1 ++
          extractAddString context zm (passMarker zm first p) buf ++ rest.1, rest.2)) ∧
    (∃ rest, rest = snippetIncompleteLoop zm ord
        (nextMap zm l' false).1 (nextMap zm l' false).2 l' l' false
        { passMarker zm first p with seqno := (passMarker zm first p).seqno + 1 } ∧
      snippetIncompleteLoop zm ord (nextMap zm l false).1 (nextMap zm l false).2 l l first p =
        (appendBetween zm p.seqno true ord l mid ++
          appendBetween zm (passMarker zm first p).seqno false ord mid l' ++ rest.1, rest.2)) := by
  have proper : w ≠ [] := by
    rintro rfl
    have alone := span.alone
    rw [nextMap_nil, readWord] at alone
    obtain ⟨-, same⟩ := Prod.mk.inj alone
    exact nonempty (Prod.mk.inj same).2.symm
  obtain ⟨map, n, next, -⟩ := nextMap_some zm some false
  have read := span.read
  have passed := span.passed
  rw [next] at read passed
  refine ⟨proper, ⟨_, rfl, ?_⟩, ⟨_, rfl, ?_⟩⟩
  · have skipped := gap.skipped
    rw [next] at skipped
    rw [addIncompleteLoop]
    split
    · rename_i none
      rw [skipped] at none
      cases none
    · rename_i map' b' here
      rw [skipped] at here
      cases here
      simp only [read]
      rw [if_neg nonempty, markFirst_passMarker]
  · have skipped := gap.skippedLast
    rw [next] at skipped
    rw [snippetIncompleteLoop]
    split
    · rename_i none
      rw [skipped] at none
      cases none
    · rename_i map' b' last' here
      rw [skipped] at here
      cases here
      have apart : mid.length ≠ l'.length := by
        rw [span.text, length_append, ne_eq, Nat.add_eq_right, length_eq_zero_iff]
        exact proper
      simp only [passed]
      rw [if_neg apart]

theorem Sees.unposted {marked : Bool} {text : List Byte}
    (sees : Sees context zm p marked text added []) : postings added = [] := by
  obtain ⟨terms, eq, all⟩ := sees.words
  cases all
  rw [eq, marker, if_neg fun both => both.2 rfl]
  rfl

/-- Behind spaces the strings of a text begin with a word. -/
theorem span_proper {mid buf' : List Byte}
    (gap : Gap zm l g mid) (span : Span zm mid buf w l' buf' ts) (some : mid ≠ []) : ts ≠ [] := by
  rintro rfl
  obtain ⟨map, n, next, -⟩ := nextMap_some zm some false
  have word := gap.word
  rw [next] at word
  have same := span.targets
  rw [targets_some next, nil_append] at same
  by_cases empty : l' = []
  · rw [empty, targets_nil] at same
    cases same
  · obtain ⟨map', n', next', -⟩ := nextMap_some zm empty false
    have ended := span.ended
    rw [next'] at ended
    rw [targets_some next'] at same
    obtain ⟨rfl, -⟩ := List.cons.inj same
    have space := ended map rfl
    rw [word map rfl] at space
    cases space

theorem flatten_between (seqno : Int) (ws : Bool) (ord : Int) (w l : List Byte)
    (index : zm.type = .index) :
    ((appendBetween zm seqno ws ord (w ++ l) l).map SnippetWord.term).flatten = w := by
  rw [appendBetween_append]
  by_cases empty : w = []
  · subst empty
    rfl
  · rw [if_pos ⟨empty, index⟩]
    exact append_nil w

theorem shown_space (seqno : Int) (ord : Int) (w l : List Byte) :
    shown (appendBetween zm seqno true ord (w ++ l) l) = [] := by
  rw [appendBetween_append]
  split
  · rfl
  · rfl

theorem shown_append (first second : List SnippetWord) :
    shown (first ++ second) = shown first ++ shown second :=
  filter_append _ _

theorem Sees.round {first : Bool} {pm : RecWord}
    {snippets : List SnippetWord} {seqno : Int} (incomplete : zm.completeness = false)
    (marked : passMarker zm first p = pm) (index : zm.type = .index) (proper : w ≠ [])
    (alone : readWord zm (nextMap zm w false).1 (nextMap zm w false).2 [] = (none, [], buf))
    (rest : Sees context zm { pm with seqno } false l' added snippets) :
    Sees context zm p (first && zm.firstInField) (g ++ (w ++ l'))
      ((markFirst context zm first p).1 ++ extractAddString context zm pm buf ++ added)
      (appendBetween zm p.seqno true (context.attrStr .index p.indexType p.indexName)
          (g ++ (w ++ l')) (w ++ l') ++
        appendBetween zm pm.seqno false (context.attrStr .index p.indexType p.indexName)
          (w ++ l') l' ++ snippets) where
  words := by
    obtain ⟨seqno', frame⟩ := passMarker_eq zm p first
    rw [marked] at frame
    subst frame
    obtain ⟨terms, eq, all⟩ := rest.words
    rw [marker, if_neg fun both => Bool.noConfusion both.1, nil_append] at eq
    have seen (ord : Int) : shown (appendBetween zm p.seqno true ord (g ++ (w ++ l')) (w ++ l') ++
        appendBetween zm seqno' false ord (w ++ l') l' ++ snippets) =
        ⟨seqno', false, ord, w⟩ :: shown snippets := by
      rw [shown_append, shown_append, shown_space, appendBetween_append, if_pos ⟨proper, index⟩]
      rfl
    refine ⟨(indexKey context { p with seqno := seqno' } .index, buf) :: terms, ?_, ?_⟩
    · rw [seen, postings_append, postings_append, postings_markFirst, postings_extractAddString,
        if_pos index, eq, marker, append_assoc]
      cases (first && zm.firstInField) with
      | false => rfl
      | true =>
        rw [if_pos ⟨rfl, index⟩, if_pos ⟨rfl, cons_ne_nil _ _⟩]
        rfl
    · rw [seen]
      refine .cons ⟨rfl, rfl, ?_⟩ (all.imp fun w posting shows => shows.seqno.seqno)
      rw [normalised, if_neg (Bool.eq_false_iff.mp incomplete)]
      simp only [alone, isNone_none, if_true]
  text := by
    rw [map_append, map_append, flatten_append, flatten_append,
      flatten_between p.seqno true _ g (w ++ l') index, flatten_between _ false _ w l' index,
      append_assoc]
    apply (prefix_append_right_inj g).mpr
    apply (prefix_append_right_inj w).mpr
    exact rest.text

/-- What the loops do from the beginning of `l` on. -/
theorem incomplete_sees (context : Context) (incomplete : zm.completeness = false) (l : List Byte)
    (full : ∀ word ∈ words zm l, word.flatten ≠ []) (first : Bool) (p : RecWord) (ord : Int)
    (index : ord = context.attrStr .index p.indexType p.indexName) :
    (snippetIncompleteLoop zm ord (nextMap zm l false).1 (nextMap zm l false).2 l l first p).2 =
      (addIncompleteLoop context zm (nextMap zm l false).1 (nextMap zm l false).2 first p).2 ∧
    (zm.type ≠ .index → (snippetIncompleteLoop zm ord (nextMap zm l false).1
      (nextMap zm l false).2 l l first p).1 = []) ∧
    Sees context zm p (first && zm.firstInField) l
      (addIncompleteLoop context zm (nextMap zm l false).1 (nextMap zm l false).2 first p).1
      (snippetIncompleteLoop zm ord
        (nextMap zm l false).1 (nextMap zm l false).2 l l first p).1 := by
  induction length : l.length using Nat.strong_induction_on generalizing l first p with
  | _ length' ih =>
    subst length
    obtain ⟨g, mid, gap⟩ := exists_gap zm l
    by_cases some : mid ≠ []
    swap
    · -- nothing but spaces is left
      obtain rfl : mid = [] := not_not.mp some
      have added : addIncompleteLoop context zm (nextMap zm l false).1 (nextMap zm l false).2 first
          p = ([], p) := by
        have skipped := gap.skipped
        rw [addIncompleteLoop]
        split
        · rfl
        · rename_i map b here
          rw [skipped] at here
          cases here
      have snippets : snippetIncompleteLoop zm ord (nextMap zm l false).1 (nextMap zm l false).2 l l
          first p = ([], p) := by
        have skipped := gap.skippedLast
        rw [snippetIncompleteLoop]
        split
        · rfl
        · rename_i map b last here
          rw [skipped] at here
          cases here
      rw [added, snippets]
      exact ⟨rfl, fun _ => rfl, sees_nothing rfl⟩
    obtain ⟨w, l', buf, ts, span⟩ := exists_span zm mid [] (Nat.zero_le _)
    have cut := words_word (span_proper gap span some) span.targets span.word span.ended
    rw [gap.words, cut] at full
    have nonempty : buf ≠ [] := by
      rw [span.filled, nil_append, ne_eq, take_eq_nil_iff]
      rintro (zero | empty)
      · cases zero
      · exact full ts mem_cons_self empty
    obtain ⟨proper, ⟨added, added_eq, add⟩, ⟨snippets, snippets_eq, snip⟩⟩ :=
      incomplete_round context p ord first gap span some nonempty
    obtain ⟨seqno, frame⟩ := passMarker_eq zm p first
    have shorter : l'.length < l.length := by
      rw [gap.text, span.text, length_append, length_append]
      have := length_pos_of_ne_nil proper
      omega
    have later := ih l'.length shorter l' (fun word mem => full word (.tail _ mem))
      false { passMarker zm first p with seqno := (passMarker zm first p).seqno + 1 }
      (by rw [frame]; exact index) rfl
    rw [← added_eq, ← snippets_eq] at later
    obtain ⟨position, silent, sees⟩ := later
    rw [add, snip]
    refine ⟨position, fun other => ?_, ?_⟩
    · dsimp only
      rw [silent other, gap.text, span.text, appendBetween_append, appendBetween_append,
        if_neg fun both => other both.2, if_neg fun both => other both.2]
      rfl
    · by_cases type : zm.type = .index
      · subst index
        rw [gap.text, span.text]
        exact Sees.round incomplete rfl type proper span.alone sees
      · rw [silent type] at sees
        dsimp only
        rw [silent type, gap.text, span.text, appendBetween_append, appendBetween_append,
          if_neg fun both => type both.2, if_neg fun both => type both.2]
        apply sees_nothing
        rw [postings_append, postings_append, postings_markFirst, postings_extractAddString,
          if_neg type, if_neg fun both => type both.2, sees.unposted]
        rfl

theorem complete_sees (context : Context) (complete : zm.completeness = true) (p : RecWord) :
    (snippetAddCompleteField zm (context.attrStr .index p.indexType p.indexName) p).2 =
      (extractAddCompleteField context zm p).2 ∧
    Sees context zm p false p.termBuf (extractAddCompleteField context zm p).1
      (snippetAddCompleteField zm (context.attrStr .index p.indexType p.indexName) p).1 := by
  rw [snippetAddCompleteField, extractAddCompleteField]
  by_cases empty : parseCompleteField zm p.termBuf = []
  · rw [if_pos empty]
    dsimp only
    rw [if_pos empty]
    exact ⟨rfl, sees_nothing rfl⟩
  · rw [if_neg empty]
    dsimp only
    rw [if_neg empty]
    refine ⟨rfl, ?_⟩
    by_cases type : zm.type = .index
    · have some : p.termBuf ≠ [] := by
        intro nothing
        apply empty
        rw [nothing, parseCompleteField, nextMap_nil, parseCompleteLoop, dif_pos (by decide)]
        split
        · rfl
        · rename_i map b here
          rw [skipSpaces] at here
          cases here
      rw [if_pos ⟨some, type⟩]
      refine ⟨⟨[(indexKey context p .index, parseCompleteField zm p.termBuf)], ?_, ?_⟩, ?_⟩
      · rw [postings_extractAddString, if_pos type, marker,
          if_neg fun both => Bool.noConfusion both.1]
        rfl
      · refine .cons ⟨rfl, rfl, ?_⟩ .nil
        rw [normalised, if_pos complete]
      · exact ⟨[], by rw [append_nil, map_singleton, flatten_singleton]⟩
    · rw [if_neg fun both => type both.2]
      apply sees_nothing
      rw [postings_extractAddString, if_neg type]

/-- The words of a text of an incomplete field do not map to the empty string. -/
def WordsMapped (context : Context) (p : RecWord) : Prop :=
  (context.zebraMaps p.indexType).completeness = false →
    ∀ word ∈ words (context.zebraMaps p.indexType) p.termBuf, word.flatten ≠ []

def marksFirst (zm : ZebraMap) : Bool := !zm.completeness && zm.firstInField

/-- Both make the same of a word: the position behind is the same, and the snippets are the words in
the postings. -/
structure Agree (context : Context) (extracted : RecWord × List Added × Int)
    (snippets : RecWord × List SnippetWord × Int) : Prop where
  word : extracted.1 = snippets.1
  seqno : extracted.2.2 = snippets.2.2
  sees : Sees context (context.zebraMaps extracted.1.indexType) extracted.1
    (marksFirst (context.zebraMaps extracted.1.indexType)) extracted.1.termBuf extracted.2.1
    snippets.2.1

theorem tokenAdd_agree (context : Context) (p : RecWord) (mapped : WordsMapped context p) :
    Agree context (p, (extractTokenAdd context p).1, (extractTokenAdd context p).2.seqno)
      (p, (snippetTokenAdd context p).1, (snippetTokenAdd context p).2.seqno) := by
  unfold extractTokenAdd snippetTokenAdd
  cases type : (context.zebraMaps p.indexType).completeness with
  | true =>
    obtain ⟨position, sees⟩ := complete_sees context type p
    refine ⟨rfl, ?_, ?_⟩
    · dsimp only
      rw [type, if_pos rfl, if_pos rfl, position]
    · dsimp only
      rw [type, if_pos rfl, if_pos rfl, marksFirst, type]
      exact sees
  | false =>
    obtain ⟨position, -, sees⟩ := incomplete_sees context type p.termBuf (mapped type)
      true p _ rfl
    refine ⟨rfl, ?_, ?_⟩
    · dsimp only
      rw [type, if_neg Bool.false_ne_true, if_neg Bool.false_ne_true]
      exact congrArg RecWord.seqno position.symm
    · dsimp only
      rw [type, if_neg Bool.false_ne_true, if_neg Bool.false_ne_true, marksFirst, type]
      exact sees

/-- Every record filter goes on alike with both: where the words do not map to the empty string,
each of its words gets the same positions in the snippets as in the postings. -/
theorem snippets_same_positions (context : Context) (filter : RecordFilter)
    (mapped : ∀ call ∈ filter.extract (extractTokenAdd context), WordsMapped context call.1) :
    List.Forall₂ (Agree context) (filter.extract (extractTokenAdd context))
      (filter.extract (snippetTokenAdd context)) := by
  induction filter with
  | finish => exact .nil
  | tokenAdd p next ih =>
    rw [RecordFilter.extract] at mapped ⊢
    rw [RecordFilter.extract]
    have here := tokenAdd_agree context p (mapped _ mem_cons_self)
    have position : (snippetTokenAdd context p).2.seqno = (extractTokenAdd context p).2.seqno :=
      here.seqno.symm
    refine .cons here ?_
    rw [position]
    exact ih _ fun call mem => mapped call (.tail _ mem)

/-- Two fields of a type whose character map has spaces, and one of a type for complete fields. -/
theorem snippets_same_positions_fields :
    let context : Context := {
      zebraMaps := fun type =>
        { type := .index, completeness := type = [112], alwaysmatches := true, firstInField := true,
          maptab := some [([32], chrSpace), ([97], [97]), ([65], [97]), ([98], [98])] }
      attrStr := fun _ type _ => type.length
      segmentIndexing := false }
    let field (type text : List Byte) : RecWord :=
      { indexType := type, indexName := [], termBuf := text, seqno := 1, segment := 0,
        recordId := 0,
        sectionId := 0 }
    let filter := RecordFilter.fields [field [119] [65, 98], field [112] [65, 32, 98]] 1
    List.Forall₂ (Agree context) (filter.extract (extractTokenAdd context))
      (filter.extract (snippetTokenAdd context)) := by
  intro context field filter
  have first : targets (context.zebraMaps [119]) [65, 98] = [[97], [98]] := by
    rw [targets_some (show nextMap _ _ false = (some [97], [98]) from rfl),
      targets_some (show nextMap _ _ false = (some [98], []) from rfl), targets_nil]
  apply snippets_same_positions
  intro call mem
  simp only [filter, RecordFilter.fields, RecordFilter.extract, mem_cons, not_mem_nil,
    or_false] at mem
  rcases mem with rfl | rfl
  · intro _ word mem
    change word ∈ words (context.zebraMaps [119]) [65, 98] at mem
    rw [words, first] at mem
    obtain rfl : word = [[97], [98]] := mem_singleton.mp mem
    exact cons_ne_nil _ _
  · intro incomplete
    cases incomplete

end Tokens

end Zebra
