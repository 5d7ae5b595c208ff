import Zebra.Dfa.Automaton
import Zebra.Dfa.ParseSpec

/-!
# From a pattern to its automaton

`dfa_parse` followed by `dfa_mkstate`: the automaton accepts the words that the pattern denotes,
unless it has more states than a `short` can number.
-/

namespace Zebra.Dfa

open List

def dfaAnysetIncludesNl (p : DfaParse) : DfaParse := { p with anyset := addBSet p.anyset 10 }

/-- The states of the parser that patterns are parsed from. -/
def Initial (p : DfaParse) : Prop := p = dfaInit ∨ p = dfaAnysetIncludesNl dfaInit

/-- The automaton of the tree `root` runs as the pattern says. -/
def CompilesRight (p : DfaParse) (pattern : List Byte) (position : Nat) (root : Tnode) : Prop :=
  ∃ states, Settles (dfaMkstate position root) (.ok states) ∧
    (∃ l, PatternDenotes p.anyset pattern l ∧
      ∀ w, Text w → (accepts states w = true ↔ w ∈ l)) ∧
    DisjointRanges states

theorem nextchar_rest (ptr : List Byte) : ∀ b ∈ (nextchar ptr).2.2, b ∈ ptr := by
  intro b
  fun_cases nextchar ptr <;> simp_all

theorem nextchar_unescaped {ptr ptr' : List Byte} {c : Nat}
    (read : nextchar ptr = (c, false, ptr')) : c = 0 ∨ c ∈ ptr := by
  unfold nextchar at read
  split at read
  · exact .inl (Prod.mk.inj read).1.symm
  · simp at read
  · split at read <;> simp at read
  · obtain ⟨rfl, -⟩ := Prod.mk.inj read
    exact .inr mem_cons_self

theorem literal_rest (c : Nat) (ptr : List Byte) : ∀ b ∈ (literal c ptr).2, b ∈ ptr := by
  intro b
  cases ptr with
  | nil => simp [literal]
  | cons ch rest =>
    by_cases one : c = 1
    · simpa only [literal, if_pos one] using mem_cons_of_mem _
    · simpa only [literal, if_neg one] using id

/-- A token without a bracket is no class, and leaves no bracket. -/
theorem Reads.no_class {inside inside' : Bool} {ptr rest : List Byte} {tok : Token}
    (reads : Reads inside ptr tok inside' rest) (plain : 91 ∉ ptr) :
    91 ∉ rest ∧ ∀ set, tok ≠ .chars set := by
  induction reads with
  | quote next _ ih => exact ih fun mem => plain (nextchar_rest _ _ (by rwa [next]))
  | char next _ _ =>
    refine ⟨fun mem => plain (nextchar_rest _ _ ?_), by simp⟩
    rw [next]
    exact literal_rest _ _ _ mem
  | chars next _ => exact absurd ((nextchar_unescaped next).resolve_left (by decide)) plain
  | op next _ _ _ _ _ => exact ⟨fun mem => plain (nextchar_rest _ _ (by rwa [next])), by simp⟩
  | plain next _ _ _ _ =>
    refine ⟨fun mem => plain (nextchar_rest _ _ ?_), by simp⟩
    rw [next]
    exact literal_rest _ _ _ mem

variable {pattern : List Byte}

theorem classesInhabited_of_plain (plain : 91 ∉ pattern) : ClassesInhabited pattern := by
  have no_class {inside : Bool} {ptr : List Byte} {toks : List Token}
      (tokens : Tokens inside ptr toks) (plain : 91 ∉ ptr) : ∀ set, Token.chars set ∉ toks := by
    induction tokens with
    | eos _ => simp
    | cons reads _ ih =>
      obtain ⟨plain', not_class⟩ := reads.no_class plain
      intro set mem
      rcases mem_cons.mp mem with eq | mem
      · exact not_class set eq.symm
      · exact ih plain' set mem
  exact fun toks tokens set mem => absurd mem (no_class tokens plain set)

/-- The parser has taken the expression and the `$` behind it. -/
structure BodyParsed (p : DfaParse) (t1 : Tnode) (p' : DfaParse) : Prop where
  scanning : Scanning p'
  numbered : Numbered p.position t1 p'.position
  rule : p'.rule = p.rule
  anyset : p'.anyset = p.anyset
  denotes : ∃ used, (∀ rest, Upcoming p' rest → Upcoming p (used ++ rest)) ∧
    (Inhabited used → (∃ c, BSet.Mem p.anyset c) → PatternLang p.anyset used t1.lang)

variable {lo pos fuel : Nat}

theorem newline_numbered : Numbered lo (.leaf (lo + 1) 10 10) (lo + 1) :=
  Numbered.leaf (le_refl 10) (by decide)

theorem newline_lang : (Tnode.leaf pos 10 10).lang = charsLang (· = 10) := by
  have lang : (Tnode.leaf pos (10 : Nat) (10 : Nat)).lang = _ := leaf_lang
  rw [charsLang_congr fun c => (and_comm.trans le_antisymm_iff.symm)] at lang
  exact lang

variable {p p' : DfaParse}

theorem parseBody_spec {t1 : Tnode} (scanning : Scanning p)
    (read : parseBody fuel p = some (some t1, p')) : BodyParsed p t1 p' := by
  rw [parseBody] at read
  split at read
  · next endAnchor =>
    obtain ⟨q, lexed, eq⟩ := Option.bind_eq_some_iff.mp read
    obtain ⟨tree_eq, rfl⟩ := Prod.mk.inj (Option.some.inj eq)
    obtain rfl := Option.some.inj tree_eq
    have at_end : current p = some (.op .endAnchor) := by simp [current, endAnchor]
    obtain ⟨kept, scanning', upcoming⟩ := lex_current (q := { p with position := p.position + 1 })
      scanning at_end rfl rfl rfl lexed
    refine ⟨scanning', ?_, kept.rule, kept.anyset, [.op .endAnchor], upcoming, fun _ _ => ?_⟩
    · rw [kept.position]
      exact newline_numbered
    · rw [newline_lang]
      exact .newline
  · obtain ⟨⟨t1, q⟩, read1, rest⟩ := Option.bind_eq_some_iff.mp read
    cases t1 with
    | none => simp at rest
    | some t1 =>
      have parsed := (parserSound fuel).expr1 scanning read1
      obtain ⟨used, upcoming1, denotes⟩ := parsed.denotes
      simp only at rest
      split at rest
      · next endAnchor =>
        obtain ⟨r, lexed, eq⟩ := Option.bind_eq_some_iff.mp rest
        obtain ⟨tree_eq, rfl⟩ := Prod.mk.inj (Option.some.inj eq)
        obtain rfl := Option.some.inj tree_eq
        have at_end : current q = some (.op .endAnchor) := by simp [current, endAnchor]
        obtain ⟨kept, scanning', upcoming⟩ :=
          lex_current (q := { q with position := q.position + 1 }) parsed.scanning at_end
            rfl rfl rfl
            lexed
        refine ⟨scanning', ?_, kept.rule.trans parsed.rule, kept.anyset.trans parsed.anyset,
          used ++ [.op .endAnchor], fun rest up => ?_, fun inhabited any => ?_⟩
        · rw [kept.position]
          exact parsed.numbered.cat newline_numbered
        · rw [append_assoc]
          exact upcoming1 _ (upcoming rest up)
        · rw [Tnode.lang, newline_lang]
          exact .line (denotes inhabited.left any)
      · obtain ⟨tree_eq, rfl⟩ := Prod.mk.inj (Option.some.inj rest)
        obtain rfl := Option.some.inj tree_eq
        exact ⟨parsed.scanning, parsed.numbered, parsed.rule, parsed.anyset, used, upcoming1,
          fun inhabited any => .expr (denotes inhabited any)⟩

/-- The tree `t1` has become a rule, with an accepting leaf behind it. -/
structure RuleParsed (p : DfaParse) (anchored : Bool) (t1 root : Tnode) (p' : DfaParse) : Prop where
  root_eq : root = rootOf t1 p'.position (-(p.rule + 1 : Nat))
    (if anchored then 0 else -(p.rule + 1 : Nat))
  numbered : ∃ hi, p'.position = hi + 1 ∧ Numbered p.position t1 hi
  rule : p'.rule = p.rule + 1
  anyset : p'.anyset = p.anyset
  cmap : p'.charMap = thompsonChars

variable {root : Tnode}

theorem RuleParsed.ready {anchored : Bool} {t1 : Tnode}
    (parsed : RuleParsed p anchored t1 root p') : Ready t1 p'.position (-(p.rule + 1 : Nat))
      (if anchored then 0 else -(p.rule + 1 : Nat)) := by
  obtain ⟨hi, position, numbered⟩ := parsed.numbered
  refine ⟨?_, numbered.ranges, by omega⟩
  refine nodup_append'.mpr ⟨numbered.distinct, nodup_singleton _, ?_⟩
  intro x mem mem'
  have within := numbered.within x mem
  rw [mem_singleton.mp mem'] at within
  omega

theorem parseRule_spec {flag : Bool}
    (scanning : Scanning p) (read : parseRule fuel flag p = some (.ok root, p')) :
    ∃ t1, RuleParsed p flag t1 root p' ∧ ∃ toks, Upcoming p toks ∧
      (Inhabited toks → (∃ c, BSet.Mem p.anyset c) → PatternLang p.anyset toks t1.lang) := by
  obtain ⟨⟨t1, q⟩, body, finish⟩ := Option.bind_eq_some_iff.mp read
  cases t1 with
  | none => simp at finish
  | some t1 =>
    simp only at finish
    split at finish
    · next at_end =>
      obtain ⟨root_eq, rfl⟩ := Prod.mk.inj (Option.some.inj finish)
      obtain rfl := Except.ok.inj root_eq
      have parsed := parseBody_spec scanning body
      obtain ⟨used, upcoming, denotes⟩ := parsed.denotes
      have nothing_left : Upcoming q [] := by simp [Upcoming, current, at_end]
      have all_used := upcoming [] nothing_left
      rw [append_nil] at all_used
      refine ⟨t1, ⟨?_, ⟨q.position, rfl, parsed.numbered⟩, ?_, parsed.anyset, parsed.scanning.cmap⟩,
        used, all_used, denotes⟩
      · rw [← parsed.rule]
        rfl
      · rw [← parsed.rule]
    · simp at finish

/-- A pattern that is accepted has become a rule with the tree of what it denotes. -/
theorem doParse_rule (cmap : p.charMap = thompsonChars) (str : CString pattern)
    (parsed : doParse fuel p pattern = some (.ok root, p')) :
    ∃ anchored t1, RuleParsed p anchored t1 root p' ∧
      ∃ toks, Tokens false pattern (if anchored then .op .startAnchor :: toks else toks) ∧
        (Inhabited toks → (∃ c, BSet.Mem p.anyset c) → PatternLang p.anyset toks t1.lang) := by
  obtain ⟨q, lexed, read⟩ := Option.bind_eq_some_iff.mp parsed
  obtain ⟨kept, scanning, tokens⟩ :=
    lex_spec (p := { p with exprPtr := pattern, insideString := false }) str cmap lexed
  have rule {r : DfaParse} {t1 : Tnode} {anchored : Bool} (position : r.position = p.position)
      (rule_eq : r.rule = p.rule) (anyset : r.anyset = p.anyset)
      (made : RuleParsed r anchored t1 root p') : RuleParsed p anchored t1 root p' := by
    obtain ⟨root_eq, numbered, rule', anyset', cmap'⟩ := made
    rw [rule_eq] at root_eq rule'
    rw [position] at numbered
    exact ⟨root_eq, numbered, rule', anyset'.trans anyset, cmap'⟩
  split at read
  · next anchor =>
    obtain ⟨r, lexed', read⟩ := Option.bind_eq_some_iff.mp read
    have at_start : current q = some (.op .startAnchor) := by simp [current, anchor]
    obtain ⟨kept', scanning', upcoming⟩ := lex_current scanning at_start rfl rfl rfl lexed'
    obtain ⟨t1, made, toks, up, denotes⟩ := parseRule_spec scanning' read
    have anyset := kept'.anyset.trans kept.anyset
    rw [anyset] at denotes
    exact ⟨true, t1, rule (kept'.position.trans kept.position)
      (kept'.rule.trans kept.rule) anyset made,
      toks, tokens _ (upcoming toks up), denotes⟩
  · obtain ⟨t1, made, toks, up, denotes⟩ := parseRule_spec scanning read
    rw [kept.anyset] at denotes
    exact ⟨false, t1, rule kept.position kept.rule kept.anyset made, toks, tokens toks up, denotes⟩

/-- A pattern that is accepted has become the tree of what it denotes. -/
theorem doParse_spec
    (cmap : p.charMap = thompsonChars) (any : ∃ c, BSet.Mem p.anyset c) (str : CString pattern)
    (classes : ClassesInhabited pattern) (parsed : doParse fuel p pattern = some (.ok root, p')) :
    ∃ t1 pos ch0 ch1, root = rootOf t1 pos ch0 ch1 ∧ Ready t1 pos ch0 ch1 ∧
      PatternDenotes p.anyset pattern t1.lang := by
  obtain ⟨anchored, t1, made, toks, tokens, denotes⟩ := doParse_rule cmap str parsed
  refine ⟨t1, _, _, _, made.root_eq, made.ready, ?_⟩
  cases anchored with
  | true =>
    exact .anchored tokens
      (denotes (fun set mem => classes _ tokens set (.tail _ mem)) any)
  | false => exact .plain tokens (denotes (classes toks tokens) any)

theorem Initial.cmap {p : DfaParse} (initial : Initial p) : p.charMap = thompsonChars := by
  rcases initial with rfl | rfl
  · rfl
  · rfl

theorem Initial.any {p : DfaParse} (initial : Initial p) : ∃ c, BSet.Mem p.anyset c := by
  refine ⟨97, ?_⟩
  rcases initial with rfl | rfl
  · exact ⟨by decide, by decide⟩
  · exact ⟨by decide, by decide⟩

/-- The automaton of an accepted pattern accepts what the pattern denotes, with disjoint ranges,
exactly if its states can be numbered. -/
theorem compiles_right_iff {p p' : DfaParse} (initial : Initial p) {pattern : List Byte}
    (str : CString pattern) (classes : ClassesInhabited pattern) {fuel : Nat} {root : Tnode}
    (parsed : doParse fuel p pattern = some (.ok root, p')) (few : p'.position < catCode) :
    CompilesRight p pattern p'.position root ↔ ¬TooManyStates root := by
  obtain ⟨t1, pos, ch0, ch1, rfl, ready, denotes⟩ :=
    doParse_spec initial.cmap initial.any str classes parsed
  obtain ⟨out, settles, ⟨rfl, too_many⟩ | ⟨states, rfl, fits, accepts_iff, disjoint⟩⟩ :=
    dfaMkstate_spec ready few
  · refine iff_of_false ?_ (not_not.mpr too_many)
    rintro ⟨states, settles', -⟩
    exact absurd (settles.unique settles') (by simp)
  · exact iff_of_true ⟨states, settles, ⟨t1.lang, denotes, accepts_iff⟩, disjoint⟩ fits

theorem compiles_right_iff_alternatives :
    ∃ root p', doParse 100 dfaInit [97, 124, 98, 42] = some (.ok root, p') ∧
      (CompilesRight dfaInit [97, 124, 98, 42] p'.position root ↔ ¬TooManyStates root) := by
  have accepted : (doParse 100 dfaInit [97, 124, 98, 42]).map (fun out => (out.1, out.2.position)) =
      some (.ok (rootOf (.or (.leaf 1 97 97) (.star (.leaf 2 98 98))) 3 (-1) (-1)), 3) := by
    decide +kernel
  obtain ⟨⟨out, p'⟩, parsed, eq⟩ := Option.map_eq_some_iff.mp accepted
  obtain ⟨rfl, position_eq⟩ := Prod.mk.inj eq
  have str : CString [97, 124, 98, 42] := by
    rw [CString]
    decide
  have classes : ClassesInhabited [97, 124, 98, 42] := classesInhabited_of_plain (by decide)
  have few : p'.position < catCode := by
    rw [show p'.position = 3 from position_eq]
    decide
  exact ⟨_, p', parsed, compiles_right_iff (.inl rfl) str classes parsed few⟩

/-- `(a|b)` -/
def letterPattern : List Byte := [40, 97, 124, 98, 41]

/-- `(a|b)*a`, and `n` times `(a|b)` -/
def behindPattern (n : Nat) : List Byte :=
  letterPattern ++ [42, 97] ++ (replicate n letterPattern).flatten

/-- The tree of `(a|b)` behind the position `lo`. -/
def letterTree (lo : Nat) : Tnode := .or (.leaf (lo + 1) 97 97) (.leaf (lo + 2) 98 98)

/-- The tree of `behindPattern`. -/
def behindTree : Nat → Tnode
  | 0 => .cat (.star (letterTree 0)) (.leaf 3 97 97)
  | n + 1 => .cat (behindTree n) (letterTree (2 * n + 3))

variable {w : List Letter}

theorem leaf_mem {c : Nat} : w ∈ (Tnode.leaf pos c c).lang ↔ w = [(c : Letter)] := by
  rw [leaf_lang, charsLang_congr fun c => (and_comm.trans le_antisymm_iff.symm)]
  exact exists_eq_left

theorem letterTree_mem : w ∈ (letterTree lo).lang ↔ ∃ a, w = [a] ∧ (a = 97 ∨ a = 98) := by
  have first : w ∈ (Tnode.leaf (lo + 1) 97 97).lang ↔ w = [97] := leaf_mem
  have second : w ∈ (Tnode.leaf (lo + 2) 98 98).lang ↔ w = [98] := leaf_mem
  rw [letterTree, Tnode.lang, Language.mem_add, first, second]
  constructor
  · rintro (rfl | rfl)
    · exact ⟨97, rfl, .inl rfl⟩
    · exact ⟨98, rfl, .inr rfl⟩
  · rintro ⟨a, rfl, rfl | rfl⟩
    · exact .inl rfl
    · exact .inr rfl

/-- Words of `a`s and `b`s. -/
def Letters (w : List Letter) : Prop := ∀ a ∈ w, a = 97 ∨ a = 98

theorem letters_mem_kstar (letters : Letters w) : w ∈ KStar.kstar (letterTree lo).lang := by
  induction w with
  | nil => exact Language.nil_mem_kstar _
  | cons a w ih =>
    obtain ⟨letter, letters⟩ := forall_mem_cons.mp letters
    exact cons_mem_kstar.mpr ⟨[], w, letterTree_mem.mpr ⟨a, rfl, letter⟩, ih letters, rfl⟩

/-- Whether a word belongs to the pattern is told by the letter that has `n` letters behind it. -/
theorem behindTree_mem {n : Nat} {y : List Letter} {a : Letter} (letters : Letters (w ++ a :: y))
    (length_eq : y.length = n) : w ++ a :: y ∈ (behindTree n).lang ↔ a = 97 := by
  induction n generalizing y with
  | zero =>
    obtain rfl := length_eq_zero_iff.mp length_eq
    have leaf (v : List Letter) : v ∈ (Tnode.leaf 3 97 97).lang ↔ v = [97] := leaf_mem
    constructor
    · rintro ⟨u, -, v, v_mem, eq⟩
      obtain rfl := (leaf v).mp v_mem
      exact (List.cons.inj (append_inj' eq rfl).2).1.symm
    · rintro rfl
      refine ⟨w, letters_mem_kstar fun b mem => letters b (mem_append_left _ mem), [97],
        (leaf _).mpr rfl, rfl⟩
  | succ n ih =>
    obtain ⟨y, c, rfl⟩ := (eq_nil_or_concat' y).resolve_left
      (ne_nil_of_length_eq_add_one length_eq)
    have c_letter : c = 97 ∨ c = 98 := letters c (by simp)
    have split_eq : w ++ a :: (y ++ [c]) = (w ++ a :: y) ++ [c] := by simp
    have letters' : Letters (w ++ a :: y) := fun b mem =>
      letters b (by rw [split_eq]; exact mem_append_left _ mem)
    rw [← ih letters' (by simpa using length_eq), split_eq]
    constructor
    · rintro ⟨u, u_mem, v, v_mem, eq⟩
      obtain ⟨b, rfl, -⟩ := letterTree_mem.mp v_mem
      rwa [← (append_inj' eq rfl).1]
    · intro mem
      exact ⟨_, mem, [c], letterTree_mem.mpr ⟨c, rfl, c_letter⟩, rfl⟩

/-- The words of `n` `a`s and `b`s. -/
def letterWords : Nat → List (List Letter)
  | 0 => [[]]
  | n + 1 => (letterWords n).map (97 :: ·) ++ (letterWords n).map (98 :: ·)

theorem letterWords_spec (n : Nat) : (letterWords n).Nodup ∧ (letterWords n).length = 2 ^ n ∧
    ∀ w ∈ letterWords n, w.length = n ∧ Letters w := by
  induction n with
  | zero => exact ⟨nodup_singleton _, rfl, by simp [letterWords, Letters]⟩
  | succ n ih =>
    obtain ⟨nodup, length_eq, words⟩ := ih
    refine ⟨nodup_append'.mpr ⟨?_, ?_, ?_⟩, ?_, ?_⟩
    · exact nodup.map fun _ _ eq => (List.cons.inj eq).2
    · exact nodup.map fun _ _ eq => (List.cons.inj eq).2
    · intro w mem mem'
      obtain ⟨u, -, rfl⟩ := mem_map.mp mem
      obtain ⟨v, -, eq⟩ := mem_map.mp mem'
      exact absurd (List.cons.inj eq).1 (by decide)
    · rw [letterWords, length_append, length_map, length_map, length_eq, pow_succ]
      omega
    · intro w mem
      have first_letter {a : Letter} (letter : a = 97 ∨ a = 98)
          (mem : w ∈ (letterWords n).map (a :: ·)) : w.length = n + 1 ∧ Letters w := by
        obtain ⟨u, u_mem, rfl⟩ := mem_map.mp mem
        obtain ⟨length_eq, letters⟩ := words u u_mem
        exact ⟨by rw [length_cons, length_eq], forall_mem_cons.mpr ⟨letter, letters⟩⟩
      exact (mem_append.mp mem).elim (first_letter (.inl rfl)) (first_letter (.inr rfl))

/-- The pattern has a state for every word of the letters that it looks back at. -/
theorem behindTree_tooManyStates {n : Nat} {ch0 ch1 : Int} (many : shrtMax + 1 < 2 ^ (n + 1))
    (ready : Ready (behindTree n) pos ch0 ch1) :
    TooManyStates (rootOf (behindTree n) pos ch0 ch1) := by
  obtain ⟨nodup, length_eq, words⟩ := letterWords_spec (n + 1)
  -- a word with as many letters behind it as it takes to ask for its letter at `i`
  have asks {u : List Letter} (mem : u ∈ letterWords (n + 1)) {i : Nat} (lt : i < u.length) :
      u ++ replicate i 97 ∈ (behindTree n).lang ↔ u[i] = 97 := by
    obtain ⟨u_length, letters⟩ := words u mem
    have u_eq : u = u.take i ++ u[i] :: u.drop (i + 1) := by
      rw [← drop_eq_getElem_cons lt, take_append_drop]
    have split_eq : u ++ replicate i 97 = u.take i ++ u[i] :: (u.drop (i + 1) ++ replicate i 97) :=
      (congrArg (· ++ replicate i 97) u_eq).trans (by simp only [append_assoc, cons_append])
    rw [split_eq]
    refine behindTree_mem ?_ (by simp; omega)
    rw [← split_eq]
    intro a a_mem
    rcases mem_append.mp a_mem with a_mem | a_mem
    · exact letters a a_mem
    · exact .inl (eq_of_mem_replicate a_mem)
  refine ready.tooManyStates nodup (by rwa [length_eq]) ?_ ?_ ?_
  · intro u mem a a_mem
    rcases (words u mem).2 a a_mem with rfl | rfl <;> decide
  · intro u mem
    obtain ⟨u_length, letters⟩ := words u mem
    refine ⟨97 :: replicate n 97, (behindTree_mem ?_ (length_replicate ..)).mpr rfl⟩
    intro a a_mem
    rcases mem_append.mp a_mem with a_mem | a_mem
    · exact letters a a_mem
    · rcases mem_cons.mp a_mem with rfl | a_mem
      · exact .inl rfl
      · exact .inl (eq_of_mem_replicate a_mem)
  · intro u u_mem v v_mem same
    obtain ⟨u_length, u_letters⟩ := words u u_mem
    obtain ⟨v_length, v_letters⟩ := words v v_mem
    refine ext_getElem (u_length.trans v_length.symm) fun i lt lt' => ?_
    have iff := (asks u_mem lt).symm.trans ((same _).trans (asks v_mem lt'))
    have u_letter := u_letters _ (getElem_mem lt)
    rcases v_letters _ (getElem_mem lt') with v_a | v_b
    · exact (iff.mpr v_a).trans v_a.symm
    · have not_a : u[i] ≠ 97 := fun u_a => absurd ((iff.mp u_a).symm.trans v_b) (by decide)
      exact (u_letter.resolve_left not_a).trans v_b.symm

theorem behindPattern_parsed : (doParse 200 dfaInit (behindPattern 15)).map
    (fun out => (out.1, out.2.position)) = some (.ok (rootOf (behindTree 15) 34 (-1) (-1)),
      34) := by
  decide +kernel

/-- The pattern `(a|b)*a` with 15 times `(a|b)` behind it: it is accepted and has no class and few
positions, but its automaton is not built. -/
theorem behindPattern_not_compiled : ∃ root p',
    CString (behindPattern 15) ∧ ClassesInhabited (behindPattern 15) ∧
      doParse 200 dfaInit (behindPattern 15) = some (.ok root, p') ∧ p'.position < catCode ∧
      ¬CompilesRight dfaInit (behindPattern 15) p'.position root := by
  obtain ⟨⟨out, p'⟩, parsed, eq⟩ := Option.map_eq_some_iff.mp behindPattern_parsed
  obtain ⟨rfl, position_eq⟩ := Prod.mk.inj eq
  have str : CString (behindPattern 15) := by
    rw [CString]
    decide
  have classes : ClassesInhabited (behindPattern 15) := classesInhabited_of_plain (by decide)
  have few : p'.position < catCode := by
    rw [show p'.position = 34 from position_eq]
    decide
  refine ⟨_, p', str, classes, parsed, few, ?_⟩
  obtain ⟨t1, pos, ch0, ch1, root_eq, ready, -⟩ :=
    doParse_spec rfl (Initial.any (.inl rfl)) str classes parsed
  obtain ⟨rfl, leaf_eq⟩ := Tnode.cat.inj root_eq
  have too_many := behindTree_tooManyStates (by decide) ready
  obtain ⟨out, settles, ⟨rfl, -⟩ | ⟨states, -, fits, -⟩⟩ := dfaMkstate_spec ready few
  · rintro ⟨states, settles', -⟩
    rw [root_eq] at settles'
    exact absurd (settles.unique settles') (by simp)
  · exact absurd too_many fits

end Zebra.Dfa
