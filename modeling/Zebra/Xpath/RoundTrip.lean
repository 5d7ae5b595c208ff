import Zebra.Lib.SelfDelimiting
import Zebra.Xpath.Safe

/-!
# Paths as they are printed

A predicate is written with its relations, `and`, `or` and parentheses, and a path with its steps.
Its tokens are those it is written with, and the parser builds the tree it has been written from.
-/

namespace Zebra.Xpath

open List

/-- A predicate, with the parentheses and the quotes it is written with. -/
inductive Query where
  | relation (name op : List Byte) (quote : Byte) (value : List Byte)
  | paren (query : Query)
  | join (left : Query) (op : List Byte) (right : Query)

namespace Query

def tree : Query → XpathPredicate
  | relation name op _ value => .relation name op value
  | paren query => query.tree
  | join left op right => .boolean op left.tree right.tree

def text : Query → List Byte
  | relation name op quote value => name ++ (op ++ quote :: (value ++ [quote]))
  | paren query => 40 :: (query.text ++ [41])
  | join left op right => left.text ++ 32 :: (op ++ 32 :: right.text)

def toks : Query → List Token
  | relation name op _ value => [⟨name, false⟩, ⟨op, false⟩, ⟨value, true⟩]
  | paren query => ⟨[40], false⟩ :: (query.toks ++ [⟨[41], false⟩])
  | join left op right => left.toks ++ ⟨op, false⟩ :: right.toks

open Query (toks)

/-- A name is a word, and does not begin with a quote. -/
def Name (name : List Byte) : Prop :=
  name ≠ [] ∧ (∀ c ∈ name, wordEnd c = false) ∧ name.head? ≠ some 39

def Operand : Query → Prop
  | relation _ _ _ _ => True
  | paren _ => True
  | join _ _ _ => False

/-- A predicate that can be read back: operators associate to the left. -/
def WellFormed : Query → Prop
  | relation name op quote value =>
    Name name ∧ op ∈ ([[60], [62], [61], [60, 61], [62, 61]] : List (List Byte)) ∧
      (quote = 34 ∨ quote = 39) ∧ quote ∉ value
  | paren query => query.WellFormed
  | join left op right =>
    left.WellFormed ∧ op ∈ ([[97, 110, 100], [111, 114]] : List (List Byte)) ∧ right.WellFormed ∧
      right.Operand

/-- No value has a `]`. -/
def NoBracket : Query → Prop
  | relation _ _ _ value => 93 ∉ value
  | paren query => query.NoBracket
  | join left _ right => left.NoBracket ∧ right.NoBracket

end Query

theorem getXpPart_space (s : List Byte) : getXpPart (some (32 :: s)) = getXpPart (some s) := rfl

theorem getXpPart_cons {c : Byte} {cp : List Byte} (noSpace : c ≠ 32) :
    getXpPart (some (c :: cp)) =
      if c = 40 ∨ c = 41 then some (⟨[c], false⟩, some cp)
      else if opChar c then
        if (c :: cp).dropWhile opChar = [] then none
        else some (⟨(c :: cp).takeWhile opChar, false⟩, some ((c :: cp).dropWhile opChar))
      else if c = 34 ∨ c = 39 then
        some (⟨cp.takeWhile (· != c), true⟩, some ((cp.dropWhile (· != c)).drop 1))
      else
        some (⟨(c :: cp).takeWhile (!wordEnd ·), false⟩,
          some ((c :: cp).dropWhile (!wordEnd ·))) := by
  have skip : ¬ (c == 32) = true := by simpa using noSpace
  rw [getXpPart, dropWhile_cons_of_neg (p := (· == 32)) skip]

variable {rest op : List Byte}

theorem getXpPart_word {name : List Byte} {d : Byte} (word : Query.Name name)
    (stop : wordEnd d = true) :
    getXpPart (some (name ++ d :: rest)) = some (⟨name, false⟩, some (d :: rest)) := by
  obtain ⟨nonempty, inside, noQuote⟩ := word
  obtain ⟨taken, dropped⟩ := takeWhile_append_stop (p := (!wordEnd ·)) (w := name) (d := d)
    (r := rest) (fun c mem => by simp [inside c mem]) (by simp [stop])
  cases name with
  | nil => exact absurd rfl nonempty
  | cons c name =>
    have first := inside c mem_cons_self
    have apart : c ≠ 32 ∧ ¬ (c = 40 ∨ c = 41) ∧ ¬ opChar c = true ∧ c ≠ 34 := by
      simp [wordEnd] at first
      simp [opChar]
      grind
    have noQuote' : ¬ (c = 34 ∨ c = 39) := by
      rintro (same | same)
      · exact apart.2.2.2 same
      · exact noQuote (congrArg some same)
    rw [cons_append, getXpPart_cons apart.1, if_neg apart.2.1, if_neg apart.2.2.1,
      if_neg noQuote', ← cons_append, taken, dropped]

theorem getXpPart_op {d : Byte}
    (mem : op ∈ ([[60], [62], [61], [60, 61], [62, 61]] : List (List Byte)))
    (stop : opChar d = false) :
    getXpPart (some (op ++ d :: rest)) = some (⟨op, false⟩, some (d :: rest)) := by
  have inside : ∀ c ∈ op, opChar c = true := by
    revert op
    decide
  obtain ⟨taken, dropped⟩ := takeWhile_append_stop (r := rest) inside stop
  cases op with
  | nil => simp at mem
  | cons c op =>
    have first := inside c mem_cons_self
    have apart : c ≠ 32 ∧ ¬ (c = 40 ∨ c = 41) := by
      simp [opChar] at first
      grind
    rw [cons_append, getXpPart_cons apart.1, if_neg apart.2, if_pos first, ← cons_append,
      taken, dropped, if_neg (cons_ne_nil _ _)]

theorem getXpPart_literal {quote : Byte} {value : List Byte} (rest : List Byte)
    (isQuote : quote = 34 ∨ quote = 39) (closed : quote ∉ value) :
    getXpPart (some (quote :: (value ++ quote :: rest))) = some (⟨value, true⟩, some rest) := by
  obtain ⟨taken, dropped⟩ := takeWhile_append_stop (p := (· != quote)) (w := value) (d := quote)
    (r := rest) (fun c mem => by simpa using fun same : c = quote => closed (same ▸ mem)) (by simp)
  have apart : quote ≠ 32 ∧ ¬ (quote = 40 ∨ quote = 41) ∧ ¬ opChar quote = true := by
    rcases isQuote with rfl | rfl
    · decide
    · decide
  rw [getXpPart_cons apart.1, if_neg apart.2.1, if_neg apart.2.2, if_pos isQuote, taken, dropped]
  rfl

variable {ts : List Token} {e : Ending}

theorem lexed_space {s : List Byte} (lexed : Lexed s ts e) : Lexed (32 :: s) ts e := by
  cases lexed with
  | wall part => exact .wall ((getXpPart_space s).trans part)
  | nul part => exact .nul ((getXpPart_space s).trans part)
  | operator part => exact .operator ((getXpPart_space s).trans part)
  | token part lexed => exact .token ((getXpPart_space s).trans part) lexed

/-- A written predicate has its tokens, in front of those of what follows. -/
theorem Query.lexed (q : Query) (wf : q.WellFormed)
    (behind : Lexed rest ts e) : Lexed (q.text ++ rest) (q.toks ++ ts) e := by
  induction q generalizing rest ts with
  | relation name op quote value =>
    obtain ⟨word, isOp, isQuote, closed⟩ := wf
    have opHead : ∃ d op', op = d :: op' ∧ wordEnd d = true := by
      revert op
      simp
      decide
    have noOp : opChar quote = false := by
      rcases isQuote with rfl | rfl
      · decide
      · decide
    obtain ⟨d, op', rfl, stop⟩ := opHead
    simp only [Query.text, toks, append_assoc, cons_append, nil_append]
    exact .token (getXpPart_word word stop) (.token (getXpPart_op isOp noOp)
      (.token (getXpPart_literal rest isQuote closed) behind))
  | paren query ih =>
    simp only [Query.text, toks, append_assoc, cons_append, nil_append]
    exact .token rfl (ih wf (.token rfl behind))
  | join left op right ihLeft ihRight =>
    obtain ⟨wfLeft, isOp, wfRight, -⟩ := wf
    have word : Query.Name op := by
      revert op
      simp [Query.Name]
      decide
    simp only [Query.text, toks, append_assoc, cons_append]
    refine ihLeft wfLeft (.token ?_ (lexed_space (ihRight wfRight behind)))
    rw [getXpPart_space]
    exact getXpPart_word word (by decide)

theorem opensOp_of_mem
    (mem : op ∈ ([[60], [62], [61], [60, 61], [62, 61]] : List (List Byte))) :
      opensOp op = true := by
  revert op
  decide

theorem booleanOp_of_mem (mem : op ∈ ([[97, 110, 100], [111, 114]] : List (List Byte))) :
    booleanOp ⟨op, false⟩ = true := by
  revert op
  decide

theorem Query.toks_length_le (q : Query) (wf : q.WellFormed) : q.toks.length ≤ q.text.length := by
  induction q with
  | relation name op quote value =>
    have nameLength := length_pos_iff.mpr wf.1.1
    have ops : ∀ op ∈ ([[60], [62], [61], [60, 61], [62, 61]] : List (List Byte)),
        0 < op.length := by decide
    have opLength := ops op wf.2.1
    simp only [toks, Query.text, length_append, length_cons, length_nil]
    omega
  | paren query ih =>
    have shorter := ih wf
    simp only [toks, Query.text, length_append, length_cons, length_nil]
    omega
  | join left op right ihLeft ihRight =>
    have shorterLeft := ihLeft wf.1
    have shorterRight := ihRight wf.2.2.1
    simp only [toks, Query.text, length_append, length_cons]
    omega

/-- The next token is got where the text does not end with an operator. -/
theorem getLook_sees {t : Token} {look : Look}
    (sees : Sees e (t :: ts) look) (noOp : e ≠ .operator) :
    ∃ next, getLook look.pr = .ok next ∧ Sees e ts next := by
  rcases getLook_spec sees with found | ⟨-, ⟨-, -, same⟩ | ⟨nil, -⟩⟩
  · exact found
  · exact absurd same noOp
  · cases nil

theorem tree_ne_null (q : Query) : q.tree ≠ .null := by
  induction q with
  | relation name op quote value =>
    intro same
    cases same
  | paren query ih => exact ih
  | join left op right =>
    intro same
    cases same

/-- What the functions of the parser do with a written predicate. -/
structure Parses (e : Ending) (q : Query) : Prop where
  relation : q.Operand → ∀ {ts : List Token} {look : Look} {fuel : Nat},
    Sees e (q.toks ++ ts) look →
    2 * (q.toks ++ ts).length + 1 ≤ fuel →
    ∃ next, getXpathRelation fuel look = .ok (q.tree, next) ∧ Sees e ts next
  boolean : ∀ {ts : List Token} {look : Look} {fuel : Nat}, Sees e (q.toks ++ ts) look →
    2 * (q.toks ++ ts).length + 2 ≤ fuel →
    ∃ left next, 2 * ts.length + 1 ≤ left ∧ Sees e ts next ∧
      getXpathBoolean fuel look = booleanLoop left q.tree next

theorem boolean_of_relation {q : Query}
    (relation : ∀ {ts : List Token} {look : Look} {fuel : Nat}, Sees e (q.toks ++ ts) look →
      2 * (q.toks ++ ts).length + 1 ≤ fuel →
      ∃ next, getXpathRelation fuel look = .ok (q.tree, next) ∧ Sees e ts next) : Parses e q where
  relation _ := relation
  boolean {ts look fuel} sees enough := by
    cases fuel with
    | zero => exact absurd enough (Nat.not_succ_le_zero _)
    | succ fuel =>
      obtain ⟨next, parsed, sees'⟩ := @relation _ _ fuel sees (by omega)
      rw [length_append] at enough
      refine ⟨fuel, next, by omega, sees', ?_⟩
      rw [getXpathBoolean, parsed]
      exact if_neg (tree_ne_null q)

theorem Query.parses (q : Query) (wf : q.WellFormed) {e : Ending} (noOp : e ≠ .operator) :
    Parses e q := by
  induction q with
  | relation name op quote value =>
    obtain ⟨⟨nonempty, word, -⟩, isOp, -⟩ := wf
    refine boolean_of_relation fun {ts look fuel} sees enough => ?_
    have first := sees_head sees rfl
    obtain ⟨look₁, ok₁, sees₁⟩ := getLook_sees sees noOp
    obtain ⟨look₂, ok₂, sees₂⟩ := getLook_sees sees₁ noOp
    obtain ⟨look₃, ok₃, sees₃⟩ := getLook_sees sees₂ noOp
    cases fuel with
    | zero => exact absurd enough (Nat.not_succ_le_zero _)
    | succ fuel =>
      refine ⟨look₃, ?_, sees₃⟩
      rw [getXpathRelation, if_neg, getXpathName, ok₁]
      · simp only [Except.bind]
        rw [← sees_head sees₁ rfl, if_pos (by rw [opensOp_of_mem isOp]; rfl), ok₂]
        simp only
        rw [ok₃, ← first, ← sees_head sees₂ rfl]
        rfl
      · rw [← first]
        intro same
        obtain rfl : name = [40] := congrArg Token.str same
        exact Bool.noConfusion (word 40 (mem_singleton_self 40))
  | paren query ih =>
    refine boolean_of_relation fun {ts look fuel} sees enough => ?_
    simp only [toks, cons_append, append_assoc, nil_append,
      length_cons] at sees enough
    have first := sees_head sees rfl
    obtain ⟨look₁, ok₁, sees₁⟩ := getLook_sees sees noOp
    cases fuel with
    | zero => exact absurd enough (Nat.not_succ_le_zero _)
    | succ fuel =>
      obtain ⟨left, next, more, sees₂, parsed⟩ :=
        @Parses.boolean _ _ (ih wf) _ _ fuel sees₁ (by omega)
      have close := sees_head sees₂ rfl
      obtain ⟨look₃, ok₃, sees₃⟩ := getLook_sees sees₂ noOp
      cases left with
      | zero => exact absurd more (Nat.not_succ_le_zero _)
      | succ left =>
        refine ⟨look₃, ?_, sees₃⟩
        rw [getXpathRelation, if_pos first.symm, ok₁]
        simp only [Except.bind]
        rw [parsed, booleanLoop, if_neg (by rw [← close]; decide)]
        simp only
        rw [if_pos (by rw [← close]), ok₃]
        rfl
  | join left op right ihLeft ihRight =>
    obtain ⟨wfLeft, isOp, wfRight, operand⟩ := wf
    refine ⟨fun none => none.elim, fun {ts look fuel} sees enough => ?_⟩
    simp only [toks, append_assoc, cons_append] at sees enough
    obtain ⟨more, look₁, more', sees₁, parsed⟩ := (ihLeft wfLeft).boolean sees enough
    have first := sees_head sees₁ rfl
    obtain ⟨look₂, ok₂, sees₂⟩ := getLook_sees sees₁ noOp
    rw [length_cons] at more'
    cases more with
    | zero => exact absurd more' (Nat.not_succ_le_zero _)
    | succ more =>
      obtain ⟨look₃, right₃, sees₃⟩ :=
        @Parses.relation _ _ (ihRight wfRight) operand _ _ more sees₂ (by omega)
      rw [length_append] at more'
      refine ⟨more, look₃, by omega, sees₃, ?_⟩
      rw [parsed, booleanLoop, if_pos (by rw [← first]; exact booleanOp_of_mem isOp), ok₂]
      simp only [Except.bind]
      rw [right₃, ← first]
      rfl

/-- In front of a `]` a written predicate is parsed to its tree. -/
theorem getXpathPredicate_text (q : Query) (wf : q.WellFormed) (rest : List Byte) :
    getXpathPredicate (q.text ++ 93 :: rest) = .ok q.tree := by
  have lexed := q.lexed wf (.wall (getXpPart_wall rest))
  rw [append_nil] at lexed
  have short := q.toks_length_le wf
  have longer : q.text.length ≤ (q.text ++ 93 :: rest).length :=
    length_append ▸ Nat.le_add_right _ _
  obtain ⟨look, ok, sees⟩ := getLook_sees (Sees.token (t := emptyToken) lexed) (by decide)
  obtain ⟨left, next, more, sees', parsed⟩ :=
    @Parses.boolean _ _ (@Query.parses q wf .wall (by decide))
    [] _ (2 * (q.text ++ 93 :: rest).length + 2) (by rwa [append_nil])
    (by rw [append_nil]; omega)
  cases left with
  | zero => exact absurd more (Nat.not_succ_le_zero _)
  | succ left =>
    have stops : ¬ booleanOp next.look = true := by
      cases sees'
      exact Bool.false_ne_true
    dsimp only at ok
    rw [getXpathPredicate, ok]
    simp only [Except.bind]
    rw [parsed, booleanLoop, if_neg stops]
    rfl

structure PathStep where
  part : List Byte
  query : Option Query

namespace PathStep

def step (s : PathStep) : XpathLocationStep where
  part := s.part
  predicate := match s.query with
    | none => .null
    | some query => query.tree

def bracket : Option Query → List Byte
  | none => []
  | some query => 91 :: (query.text ++ [93])

def text (s : PathStep) : List Byte := s.part ++ bracket s.query

/-- A part has no `/` and no `[`, and a predicate can be read back. -/
def WellFormed (s : PathStep) : Prop :=
  (∀ c ∈ s.part, partChar c = true) ∧ ∀ query ∈ s.query, query.WellFormed

/-- The values of the predicate have no `]`. -/
def NoBracket (s : PathStep) : Prop := ∀ query ∈ s.query, query.NoBracket

end PathStep

/-- A path is written with a `/` in front of each of its steps. -/
def printPath (steps : List PathStep) : List Byte := steps.flatMap fun s => 47 :: s.text

/-- A predicate whose values have no `]` has none. -/
theorem Query.text_noBracket (q : Query) (wf : q.WellFormed) (values : q.NoBracket) :
    ∀ c ∈ q.text, (c != 93) = true := by
  have apart {w : List Byte} (none : 93 ∉ w) : ∀ c ∈ w, (c != 93) = true := by
    intro c mem
    exact bne_iff_ne.mpr fun same => none (same ▸ mem)
  induction q with
  | relation name op quote value =>
    obtain ⟨⟨-, word, -⟩, isOp, isQuote, -⟩ := wf
    have noName : 93 ∉ name := fun mem => Bool.noConfusion (word 93 mem)
    have ops : ∀ op ∈ ([[60], [62], [61], [60, 61], [62, 61]] : List (List Byte)),
        93 ∉ op := by decide
    refine apart fun mem => ?_
    rw [Query.text, mem_append, mem_append, mem_cons, mem_append,
      mem_singleton] at mem
    rcases mem with mem | mem | same | mem | same
    · exact noName mem
    · exact ops op isOp mem
    · subst same
      revert isQuote
      decide
    · exact values mem
    · subst same
      revert isQuote
      decide
  | paren query ih =>
    rw [Query.text, forall_mem_cons, forall_mem_append, forall_mem_singleton]
    exact ⟨rfl, ih wf values, rfl⟩
  | join left op right ihLeft ihRight =>
    have ops : ∀ op ∈ ([[97, 110, 100], [111, 114]] : List (List Byte)), 93 ∉ op := by decide
    rw [Query.text, forall_mem_append, forall_mem_cons, forall_mem_append,
      forall_mem_cons]
    exact ⟨ihLeft wf.1 values.1, rfl, apart (ops op wf.2.1), rfl, ihRight wf.2.2.1 values.2⟩

theorem Query.text_head (q : Query) (wf : q.WellFormed) (rest : List Byte) :
    (q.text ++ rest).dropWhile (· == 32) = q.text ++ rest := by
  have begins : ∃ c cp, q.text = c :: cp ∧ c ≠ 32 := by
    induction q with
    | relation name op quote value =>
      obtain ⟨⟨nonempty, word, -⟩, -⟩ := wf
      cases name with
      | nil => exact absurd rfl nonempty
      | cons c name =>
        refine ⟨c, _, rfl, fun same => ?_⟩
        have inside := word c mem_cons_self
        rw [same] at inside
        cases inside
    | paren query => exact ⟨40, _, rfl, by decide⟩
    | join left op right ihLeft =>
      obtain ⟨c, cp, same, noSpace⟩ := ihLeft wf.1
      exact ⟨c, _, by rw [Query.text, same, cons_append], noSpace⟩
  obtain ⟨c, cp, same, noSpace⟩ := begins
  rw [same, cons_append,
    dropWhile_cons_of_neg (p := (· == 32)) (by simpa using noSpace)]

theorem step_read (s : PathStep) (wf : s.WellFormed) (noBracket : s.NoBracket)
    (stops : rest = [] ∨ ∃ rest', rest = 47 :: rest') :
    (s.text ++ rest).takeWhile partChar = s.part ∧
      stepPredicate ((s.text ++ rest).dropWhile partChar) = .ok s.step.predicate ∧
      afterStep ((s.text ++ rest).dropWhile partChar) = rest := by
  obtain ⟨part, query⟩ := s
  obtain ⟨inside, wfQuery⟩ := wf
  dsimp only at inside wfQuery
  cases query with
  | none =>
    have shape : (PathStep.mk part none).text ++ rest = part ++ rest := by
      rw [PathStep.text, PathStep.bracket, append_nil]
    rw [shape]
    have read : (part ++ rest).takeWhile partChar = part ∧
        (part ++ rest).dropWhile partChar = rest := by
      rcases stops with rfl | ⟨rest', rfl⟩
      · rw [takeWhile_append_of_pos inside, dropWhile_append_of_pos inside]
        exact ⟨append_nil part, rfl⟩
      · exact takeWhile_append_stop inside rfl
    rw [read.2]
    refine ⟨read.1, ?_⟩
    rcases stops with rfl | ⟨rest', rfl⟩
    · exact ⟨rfl, rfl⟩
    · exact ⟨rfl, rfl⟩
  | some query =>
    have shape : (PathStep.mk part (some query)).text ++ rest =
        part ++ 91 :: (query.text ++ 93 :: rest) := by
      simp only [PathStep.text, PathStep.bracket, append_assoc, cons_append,
        nil_append]
    obtain ⟨taken, dropped⟩ := takeWhile_append_stop (r := query.text ++ 93 :: rest) inside
      (d := 91) rfl
    have own := wfQuery query rfl
    have here : predicateText (91 :: (query.text ++ 93 :: rest)) =
        some (query.text ++ 93 :: rest) := by
      rw [predicateText, if_pos rfl, query.text_head own]
    rw [shape, taken, dropped, stepPredicate, afterStep, here]
    refine ⟨rfl, getXpathPredicate_text query own rest, ?_⟩
    dsimp only
    rw [(takeWhile_append_stop (p := (· != 93))
      (query.text_noBracket own (noBracket query rfl)) rfl).2]
    rfl

/-- The steps of a path are read, where the last of them is written at all. -/
theorem parseSteps_print (s : PathStep) (steps : List PathStep)
    (wf : ∀ t ∈ s :: steps, t.WellFormed) (noBracket : ∀ t ∈ s :: steps, t.NoBracket)
    (last : ∀ t ∈ (s :: steps).getLast?, t.text ≠ []) (left : Nat) (fits : steps.length < left) :
    parseSteps left (s.text ++ printPath steps) = .ok ((s :: steps).map PathStep.step) := by
  induction steps generalizing s left with
  | nil =>
    have text := last s rfl
    obtain ⟨part, predicate, after⟩ := step_read s (wf s mem_cons_self)
      (noBracket s mem_cons_self) (.inl rfl)
    rw [append_nil] at part predicate after
    rw [printPath, flatMap_nil, append_nil]
    cases left with
    | zero => exact absurd fits (Nat.not_lt_zero _)
    | succ left =>
      cases read : s.text with
      | nil => exact absurd read text
      | cons c cp =>
        rw [read] at part predicate after
        rw [parseSteps, predicate]
        simp only [Except.bind]
        rw [after, part]
        rfl
  | cons next steps ih =>
    obtain ⟨part, predicate, after⟩ := step_read s (wf s mem_cons_self)
      (noBracket s mem_cons_self) (.inr ⟨next.text ++ printPath steps, rfl⟩)
    have more : printPath (next :: steps) = 47 :: (next.text ++ printPath steps) := rfl
    rw [← more] at part predicate after
    cases left with
    | zero => exact absurd fits (Nat.not_lt_zero _)
    | succ left =>
      have rest := ih next (fun t mem => wf t (.tail _ mem))
        (fun t mem => noBracket t (.tail _ mem))
        (fun t mem => last t (by rwa [List.getLast?_cons_cons])) left
        (Nat.lt_of_succ_lt_succ fits)
      cases read : s.text ++ printPath (next :: steps) with
      | nil =>
        rw [more] at read
        exact absurd (append_eq_nil_iff.mp read).2 (cons_ne_nil _ _)
      | cons c cp =>
        rw [read] at part predicate after
        rw [parseSteps, predicate]
        simp only [Except.bind]
        rw [after, part, more]
        dsimp only
        rw [if_pos rfl, rest]
        rfl

/-- In front of the first `/` of a path is an empty step. -/
theorem parseSteps_root (left : Nat) (rest : List Byte) :
    parseSteps (left + 1) (47 :: rest) =
      (parseSteps left rest).map fun steps => ⟨[], .null⟩ :: steps := by
  rw [parseSteps]
  rfl

/-- A path that is printed and parsed is its steps, behind the empty one in front of its first
`/`. -/
theorem zebraParseXpathStr_print (steps : List PathStep) (max : Int) (nonempty : steps ≠ [])
    (wf : ∀ s ∈ steps, s.WellFormed) (noBracket : ∀ s ∈ steps, s.NoBracket)
    (last : ∀ s ∈ steps.getLast?, s.text ≠ []) (fits : (steps.length : Int) + 1 ≤ max) :
    zebraParseXpathStr (printPath steps) max =
      .ok (some (⟨[], .null⟩ :: steps.map PathStep.step)) := by
  cases steps with
  | nil => exact absurd rfl nonempty
  | cons s steps =>
    rw [length_cons] at fits
    have rest := parseSteps_print s steps wf noBracket last (max.toNat - 1) (by omega)
    have path : printPath (s :: steps) = 47 :: (s.text ++ printPath steps) := rfl
    obtain ⟨left, same⟩ : ∃ left, max.toNat = left + 1 := ⟨max.toNat - 1, by omega⟩
    rw [same, Nat.add_sub_cancel] at rest
    rw [zebraParseXpathStr, path, if_pos (List.head?_cons ..), same, parseSteps_root, rest]
    rfl

/-- `b="c" and (d<'e' or f>="")` -/
def bothQuery : Query :=
  .join (.relation [98] [61] 34 [99]) [97, 110, 100]
    (.paren (.join (.relation [100] [60] 39 [101]) [111, 114] (.relation [102] [62, 61] 34 [])))

theorem bothQuery_wellFormed : bothQuery.WellFormed := by
  have relation {c quote : Byte} {op value : List Byte} (name : Query.Name [c])
      (isOp : op ∈ ([[60], [62], [61], [60, 61], [62, 61]] : List (List Byte)))
      (isQuote : quote = 34 ∨ quote = 39) (closed : quote ∉ value) :
      (Query.relation [c] op quote value).WellFormed := ⟨name, isOp, isQuote, closed⟩
  refine ⟨relation ?_ ?_ ?_ ?_, by decide, ⟨relation ?_ ?_ ?_ ?_, by decide,
    relation ?_ ?_ ?_ ?_, trivial⟩, trivial⟩
  all_goals first | exact ⟨by decide, by decide, by decide⟩ | decide

theorem zebraParseXpathStr_print_both :
    zebraParseXpathStr (printPath [⟨[97], some bothQuery⟩, ⟨[100], none⟩]) 10 =
      .ok (some (⟨[], .null⟩ :: [⟨[97], bothQuery.tree⟩, ⟨[100], .null⟩])) := by
  refine zebraParseXpathStr_print [⟨[97], some bothQuery⟩, ⟨[100], none⟩] 10
    (cons_ne_nil _ _) ?_ ?_ ?_ (by decide)
  · rw [forall_mem_cons, forall_mem_singleton]
    refine ⟨⟨by decide, ?_⟩, by decide, ?_⟩
    · rintro query ⟨⟩
      exact bothQuery_wellFormed
    · rintro query ⟨⟩
  · rw [forall_mem_cons, forall_mem_singleton]
    refine ⟨?_, ?_⟩
    · rintro query ⟨⟩
      have values : 93 ∉ ([99] : List Byte) ∧ 93 ∉ ([101] : List Byte) ∧ 93 ∉ ([] : List Byte) := by
        decide
      exact values
    · rintro query ⟨⟩
  · rintro s ⟨⟩
    exact cons_ne_nil _ _

/-- `/a` has the empty step in front of its first `/`. -/
theorem not_zebraParseXpathStr_print :
    ¬ ∀ (steps : List PathStep) (max : Int), (∀ s ∈ steps, s.WellFormed) →
      (steps.length : Int) ≤ max →
      zebraParseXpathStr (printPath steps) max = .ok (some (steps.map PathStep.step)) := by
  intro roundTrip
  have same := roundTrip [⟨[97], none⟩] 10
    (forall_mem_singleton.mpr ⟨by decide, by rintro query ⟨⟩⟩) (by decide)
  revert same
  decide

end Zebra.Xpath
