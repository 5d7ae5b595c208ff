import Zebra.Xpath.Parse

/-!
# The parser and the end of its input

A predicate is read as a list of tokens that ends at a `]`, where empty tokens follow without end,
at the terminating NUL, where one empty token is left, or at an operator in front of it.  Which of
these a parse gets to does not depend on its recursion: the depth of the parentheses is all that
counts.
-/

namespace Zebra.Xpath

open List

inductive Ending where
  | wall
  | nul
  | operator
  deriving DecidableEq

/-- The tokens of a text, with what they end at. -/
inductive Lexed : List Byte → List Token → Ending → Prop where
  | wall {s rest : List Byte} : getXpPart (some s) = some (emptyToken, some (93 :: rest)) →
      Lexed s [] .wall
  | nul {s : List Byte} : getXpPart (some s) = some (emptyToken, none) → Lexed s [] .nul
  | operator {s : List Byte} : getXpPart (some s) = none → Lexed s [] .operator
  | token {s rest : List Byte} {t : Token} {ts : List Token} {e : Ending} :
      getXpPart (some s) = some (t, some rest) → Lexed rest ts e → Lexed s (t :: ts) e

/-- The tokens of a text; `fuel` is more than its length. -/
@[grind =] def tokens : Nat → List Byte → List Token × Ending
  | 0, _ => ([], .wall)
  | fuel + 1, s =>
    match getXpPart (some s) with
    | none => ([], .operator)
    | some (_, none) => ([], .nul)
    | some (t, some rest) =>
      if t = emptyToken then ([], .wall) else (t :: (tokens fuel rest).1, (tokens fuel rest).2)

theorem getXpPart_progress {s rest : List Byte} {t : Token}
    (part : getXpPart (some s) = some (t, some rest)) :
    (rest.length < s.length ∧ t ≠ emptyToken) ∨ (t = emptyToken ∧ ∃ after, rest = 93 :: after) := by
  have skipped := (dropWhile_suffix (p := (· == 32)) (l := s)).length_le
  simp only [getXpPart] at part
  cases at' : s.dropWhile (· == 32) with
  | nil =>
    rw [at'] at part
    cases part
  | cons c cp =>
    rw [at', length_cons] at skipped
    rw [at'] at part
    dsimp only at part
    split at part
    · cases part
      exact .inl ⟨skipped, fun empty => cons_ne_nil _ _ (congrArg Token.str empty)⟩
    · rename_i noParen
      split at part
      · rename_i op
        split at part
        · cases part
        · cases part
          rw [dropWhile_cons_of_pos op, takeWhile_cons_of_pos op]
          have shorter := (dropWhile_suffix (p := opChar) (l := cp)).length_le
          exact .inl ⟨Nat.lt_of_lt_of_le (Nat.lt_succ_of_le shorter) skipped,
            fun empty => cons_ne_nil _ _ (congrArg Token.str empty)⟩
      · rename_i noOp
        split at part
        · cases part
          have shorter := (dropWhile_suffix (p := (· != c)) (l := cp)).length_le
          refine .inl ⟨?_, fun empty => Bool.noConfusion (congrArg Token.literal empty)⟩
          rw [length_drop]
          exact Nat.lt_of_le_of_lt (Nat.sub_le _ _) (Nat.lt_of_le_of_lt shorter skipped)
        · rename_i noQuote
          cases part
          by_cases ends : wordEnd c = true
          · have space : c ≠ 32 := by
              have head := List.head?_dropWhile_not (· == 32) s
              rw [at'] at head
              exact fun same => by simp [same] at head
            have wall : c = 93 := by
              simp only [wordEnd, contains_iff_mem, mem_cons, not_mem_nil] at ends
              simp only [opChar, contains_iff_mem, mem_cons, not_mem_nil] at noOp
              grind
            subst wall
            exact .inr ⟨rfl, cp, rfl⟩
          · have inside : (!wordEnd c) = true := by simpa using ends
            rw [dropWhile_cons_of_pos (p := (!wordEnd ·)) inside,
              takeWhile_cons_of_pos (p := (!wordEnd ·)) inside]
            have shorter := (dropWhile_suffix (p := (!wordEnd ·)) (l := cp)).length_le
            exact .inl ⟨Nat.lt_of_lt_of_le (Nat.lt_succ_of_le shorter) skipped,
              fun empty => cons_ne_nil _ _ (congrArg Token.str empty)⟩

/-- A pointer is moved behind the NUL with an empty part only. -/
theorem getXpPart_behind {s : List Byte} {t : Token} (part : getXpPart (some s) = some (t, none)) :
    t = emptyToken := by
  simp only [getXpPart] at part
  split at part
  · cases part
    rfl
  · split at part
    · cases part
    · split at part
      · split at part
        · cases part
        · cases part
      · split at part
        · cases part
        · cases part

theorem getXpPart_wall (rest : List Byte) :
    getXpPart (some (93 :: rest)) = some (emptyToken, some (93 :: rest)) :=
  rfl

theorem tokens_lexed (fuel : Nat) (s : List Byte) (enough : s.length < fuel) :
    Lexed s (tokens fuel s).1 (tokens fuel s).2 ∧ (tokens fuel s).1.length ≤ s.length := by
  induction fuel generalizing s with
  | zero => exact absurd enough (Nat.not_lt_zero _)
  | succ fuel ih =>
    rw [tokens]
    cases part : getXpPart (some s) with
    | none => exact ⟨.operator part, Nat.zero_le _⟩
    | some found =>
      obtain ⟨t, left⟩ := found
      cases left with
      | none =>
        obtain rfl := getXpPart_behind part
        exact ⟨.nul part, Nat.zero_le _⟩
      | some rest =>
        dsimp only
        rcases getXpPart_progress part with ⟨less, full⟩ | ⟨rfl, after, rfl⟩
        · obtain ⟨lexed, short⟩ := ih rest (by omega)
          rw [if_neg full]
          exact ⟨.token part lexed, Nat.lt_of_le_of_lt short less⟩
        · rw [if_pos rfl]
          exact ⟨.wall part, Nat.zero_le _⟩

inductive Phase where
  | operand
  | name
  | operator
  | relation
  deriving DecidableEq

/-- Whether a predicate, of which `ts` is left to be read, is settled: it does not go on at the end
of the text, and no parenthesis is left open where it stops, `behind` a boolean operator that is in
no parenthesis. -/
@[grind =] def settled (e : Ending) : Phase → Nat → Bool → List Token → Bool
  | phase, depth, behind, [] =>
    (e = .wall || (e = .nul && phase = .relation)) && (depth = 0 || !behind)
  | .operand, depth, behind, t :: ts =>
    if t = ⟨[40], false⟩ then settled e .operand (depth + 1) behind ts
    else settled e .name depth behind ts
  | .operator, depth, behind, _ :: ts => settled e .relation depth behind ts
  | .name, depth, behind, t :: ts =>
    if !t.literal && opensOp t.str then settled e .operator depth behind ts
    else if booleanOp t then settled e .operand depth (behind || depth = 0) ts
    else if t.str = [41] ∧ 0 < depth then settled e .relation (depth - 1) behind ts
    else depth = 0 || !behind
  | .relation, depth, behind, t :: ts =>
    if booleanOp t then settled e .operand depth (behind || depth = 0) ts
    else if t.str = [41] ∧ 0 < depth then settled e .relation (depth - 1) behind ts
    else depth = 0 || !behind

/-- The lookahead is the first of `ts`, and what is behind it is left of the text. -/
inductive Sees : Ending → List Token → Look → Prop where
  | token {e : Ending} {rest : List Byte} {t : Token} {ts : List Token} : Lexed rest ts e →
      Sees e (t :: ts) ⟨some rest, t⟩
  | wall {rest : List Byte} : Sees .wall [] ⟨some (93 :: rest), emptyToken⟩
  | nul : Sees .nul [] ⟨none, emptyToken⟩

variable {e : Ending} {ts : List Token} {look : Look}

/-- The next token is seen, unless the text has ended. -/
theorem getLook_spec (sees : Sees e ts look) :
    (∃ next, getLook look.pr = .ok next ∧ Sees e ts.tail next) ∨
    (getLook look.pr = .error .beyond ∧
      ((ts ≠ [] ∧ ts.tail = [] ∧ e = .operator) ∨ (ts = [] ∧ e = .nul))) := by
  unfold getLook
  cases sees with
  | token lexed =>
    cases lexed with
    | wall part =>
      rw [part]
      exact .inl ⟨_, rfl, .wall⟩
    | nul part =>
      rw [part]
      exact .inl ⟨_, rfl, .nul⟩
    | operator part =>
      rw [part]
      exact .inr ⟨rfl, .inl ⟨cons_ne_nil _ _, rfl, rfl⟩⟩
    | token part lexed =>
      rw [part]
      exact .inl ⟨_, rfl, .token lexed⟩
  | wall => exact .inl ⟨_, rfl, .wall⟩
  | nul => exact .inr ⟨rfl, .inr ⟨rfl, rfl⟩⟩

/-- A turn from one phase to the next takes one token, or the empty one at the end. -/
theorem getLook_turn (sees : Sees e ts look)
    {phase phase' : Phase} {depth depth' : Nat} {behind behind' : Bool}
    (turn : ∀ t rest, ts = t :: rest →
      settled e phase depth behind ts = settled e phase' depth' behind' rest)
    (empty : ts = [] → phase ≠ .relation ∧ depth = depth' ∧ behind = behind') :
    (∃ next, getLook look.pr = .ok next ∧ Sees e ts.tail next ∧
      settled e phase depth behind ts = settled e phase' depth' behind' ts.tail) ∨
    (getLook look.pr = .error .beyond ∧ settled e phase depth behind ts = false) := by
  have own : (ts = [] → e = .wall) →
      settled e phase depth behind ts = settled e phase' depth' behind' ts.tail := by
    intro atWall
    cases ts with
    | nil =>
      obtain ⟨-, rfl, rfl⟩ := empty rfl
      obtain rfl := atWall rfl
      simp [settled]
    | cons t rest => exact turn t rest rfl
  rcases getLook_spec sees with ⟨next, ok, sees'⟩ | ⟨beyond, ⟨some, none, rfl⟩ | ⟨rfl, rfl⟩⟩
  · refine .inl ⟨next, ok, sees', own fun nil => ?_⟩
    subst nil
    cases sees with
    | wall => rfl
    | nul => cases ok
  · refine .inr ⟨beyond, ?_⟩
    rw [own fun nil => absurd nil some, none]
    simp [settled]
  · obtain ⟨noRelation, -⟩ := empty rfl
    refine .inr ⟨beyond, ?_⟩
    simp [settled, noRelation]

@[grind =] def XpathPredicate.Complete : XpathPredicate → Prop
  | null => False
  | relation _ _ _ => True
  | boolean _ left right => left.Complete ∧ right.Complete

/-- A token with which neither a parenthesis is closed nor a predicate goes on. -/
def Stops (t : Token) : Prop :=
  t.str ≠ [41] ∧ booleanOp t = false

/-- What `get_xpath_relation` comes to, where `before` says whether its text is settled: a complete
tree, or none at a parenthesis that is left open. -/
def RelationOutcome (e : Ending) (depth : Nat) (behind before : Bool) (n : Nat) :
    Except Stop (XpathPredicate × Look) → Prop
  | .error stop => stop = .beyond ∧ before = false
  | .ok res => ∃ ts, Sees e ts res.2 ∧ ts.length ≤ n ∧
      ((res.1.Complete ∧ before = settled e .relation depth behind ts) ∨
        (res.1 = .null ∧ Stops res.2.look ∧ before = !behind))

/-- What the loop of `get_xpath_boolean` comes to: a complete tree, or one that lacks its last
operand. -/
def LoopOutcome (e : Ending) (depth : Nat) (behind before : Bool) (n : Nat) :
    Except Stop (XpathPredicate × Look) → Prop
  | .error stop => stop = .beyond ∧ before = false
  | .ok res => ∃ ts, Sees e ts res.2 ∧ ts.length ≤ n ∧ booleanOp res.2.look = false ∧
      ((res.1.Complete ∧ ∃ now, (now = behind ∨ depth = 0) ∧
          before = settled e .relation depth now ts) ∨
        (res.1 ≠ .null ∧ ¬ res.1.Complete ∧ Stops res.2.look ∧
          before = !(behind || decide (depth = 0))))

/-- What `get_xpath_boolean` comes to. -/
def BooleanOutcome (e : Ending) (depth : Nat) (behind before : Bool) (n : Nat)
    (res : Except Stop (XpathPredicate × Look)) : Prop :=
  LoopOutcome e depth behind before n res ∨
    ∃ look ts, res = .ok (.null, look) ∧ Sees e ts look ∧ ts.length ≤ n ∧ Stops look.look ∧
      before = !behind

theorem sees_cons (sees : Sees e ts look)
    (full : look.look ≠ emptyToken) : ∃ rest, ts = look.look :: rest := by
  cases sees with
  | token _ => exact ⟨_, rfl⟩
  | wall => exact absurd rfl full
  | nul => exact absurd rfl full

theorem sees_head {ts rest : List Token} {t : Token}
    (sees : Sees e ts look) (at' : ts = t :: rest) : t = look.look := by
  subst at'
  cases sees
  rfl

/-- A relation with a name takes one token, or three with an operator. -/
theorem getXpathName_outcome (sees : Sees e ts look)
    (noParen : look.look ≠ ⟨[40], false⟩) (depth : Nat) (behind : Bool) :
    RelationOutcome e depth behind (settled e .operand depth behind ts) ts.length
      (getXpathName look) := by
  unfold getXpathName
  have name : ∀ t rest, ts = t :: rest →
      settled e .operand depth behind ts = settled e .name depth behind rest := by
    intro t rest at'
    have head := sees_head sees at'
    rw [at', settled, if_neg]
    rwa [head]
  rcases getLook_turn sees name fun _ => ⟨by decide, rfl, rfl⟩ with
    ⟨look₁, ok₁, sees₁, turn₁⟩ | ⟨beyond, unsettled⟩
  swap
  · rw [beyond]
    exact ⟨rfl, unsettled⟩
  have shorter : ts.tail.length ≤ ts.length := by
    rw [length_tail]
    exact Nat.sub_le _ _
  rw [ok₁, turn₁]
  simp only [Except.bind]
  generalize ts.tail = ts₁ at sees₁ shorter
  by_cases op : (!look₁.look.literal && opensOp look₁.look.str) = true
  · rw [if_pos op]
    have operator : ∀ t rest, ts₁ = t :: rest →
        settled e .name depth behind ts₁ = settled e .operator depth behind rest := by
      intro t rest at'
      rw [at', settled, sees_head sees₁ at', if_pos op]
    rcases getLook_turn sees₁ operator fun _ => ⟨by decide, rfl, rfl⟩ with
      ⟨look₂, ok₂, sees₂, turn₂⟩ | ⟨beyond, unsettled⟩
    swap
    · rw [beyond]
      exact ⟨rfl, unsettled⟩
    rw [ok₂, turn₂]
    simp only
    have shorter₂ : ts₁.tail.length ≤ ts₁.length := by
      rw [length_tail]
      exact Nat.sub_le _ _
    generalize ts₁.tail = ts₂ at sees₂ shorter₂
    have relation : ∀ t rest, ts₂ = t :: rest →
        settled e .operator depth behind ts₂ = settled e .relation depth behind rest := by
      intro t rest at'
      rw [at', settled]
    rcases getLook_turn sees₂ relation fun _ => ⟨by decide, rfl, rfl⟩ with
      ⟨look₃, ok₃, sees₃, turn₃⟩ | ⟨beyond, unsettled⟩
    · rw [ok₃]
      refine ⟨ts₂.tail, sees₃, ?_, .inl ⟨trivial, turn₃⟩⟩
      rw [length_tail]
      omega
    · rw [beyond]
      exact ⟨rfl, unsettled⟩
  · rw [if_neg op]
    refine ⟨ts₁, sees₁, shorter, .inl ⟨trivial, ?_⟩⟩
    obtain ⟨rest, at'⟩ := sees_cons sees₁ (fun empty => op (by rw [empty]; rfl))
    rw [at', settled, if_neg op, settled]

theorem LoopOutcome.mono {depth : Nat} {behind before : Bool} {n m : Nat}
    {res : Except Stop (XpathPredicate × Look)} (outcome : LoopOutcome e depth behind before n res)
    (le : n ≤ m) : LoopOutcome e depth behind before m res := by
  cases res with
  | error stop => exact outcome
  | ok res =>
    obtain ⟨ts, sees, short, rest⟩ := outcome
    exact ⟨ts, sees, Nat.le_trans short le, rest⟩

/-- Where a predicate stops inside of a parenthesis, it is not settled behind a boolean operator. -/
theorem settled_stops (sees : Sees e ts look)
    (stops : Stops look.look) (depth : Nat) (behind : Bool) :
    settled e .relation depth behind ts = (decide (depth = 0) || !behind) := by
  cases sees with
  | token _ => rw [settled, if_neg (by rw [stops.2]; exact Bool.false_ne_true),
      if_neg fun close => stops.1 close.1]
  | wall => simp [settled]
  | nul => simp [settled]

/-- Outside of parentheses a predicate is settled where it does not go on. -/
theorem settled_outside (sees : Sees e ts look)
    (noOp : booleanOp look.look = false) (behind : Bool) :
    settled e .relation 0 behind ts = true := by
  cases sees with
  | token _ =>
    rw [settled, if_neg (by rw [noOp]; exact Bool.false_ne_true),
      if_neg fun close => absurd close.2 (Nat.lt_irrefl 0)]
    rfl
  | wall => rfl
  | nul => rfl

section

variable {e : Ending} {fuel : Nat}

/-- The outcomes of the three functions for what is enough of `fuel`. -/
structure Outcomes (e : Ending) (fuel : Nat) : Prop where
  relation : ∀ {ts : List Token} {look : Look}, Sees e ts look → 2 * ts.length + 1 ≤ fuel →
    ∀ depth behind, RelationOutcome e depth behind (settled e .operand depth behind ts) ts.length
      (getXpathRelation fuel look)
  boolean : ∀ {ts : List Token} {look : Look}, Sees e ts look → 2 * ts.length + 2 ≤ fuel →
    ∀ depth behind, BooleanOutcome e depth behind (settled e .operand depth behind ts) ts.length
      (getXpathBoolean fuel look)
  loop : ∀ {ts : List Token} {look : Look}, Sees e ts look → 2 * ts.length + 1 ≤ fuel →
    ∀ depth behind left, left.Complete →
      LoopOutcome e depth behind (settled e .relation depth behind ts) ts.length
        (booleanLoop fuel left look)

theorem relation_outcome (ih : Outcomes e fuel) {ts : List Token} {look : Look}
    (sees : Sees e ts look) (enough : 2 * ts.length + 1 ≤ fuel + 1) (depth : Nat) (behind : Bool) :
    RelationOutcome e depth behind (settled e .operand depth behind ts) ts.length
      (getXpathRelation (fuel + 1) look) := by
  rw [getXpathRelation]
  by_cases paren : look.look = ⟨[40], false⟩
  swap
  · rw [if_neg paren]
    exact getXpathName_outcome sees paren depth behind
  rw [if_pos paren]
  obtain ⟨rest, rfl⟩ := sees_cons sees (by rw [paren]; decide)
  have opens : ∀ t ts', look.look :: rest = t :: ts' →
      settled e .operand depth behind (look.look :: rest) =
        settled e .operand (depth + 1) behind ts' := by
    intro t ts' at'
    cases at'
    rw [settled, if_pos paren]
  rcases getLook_turn sees opens fun nil => absurd nil (cons_ne_nil _ _) with
    ⟨look₁, ok₁, sees₁, turn₁⟩ | ⟨beyond, unsettled⟩
  swap
  · rw [beyond]
    exact ⟨rfl, unsettled⟩
  rw [tail_cons] at sees₁ turn₁
  rw [length_cons] at enough ⊢
  rw [ok₁, turn₁]
  simp only [Except.bind]
  have inner := ih.boolean sees₁ (by omega) (depth + 1) behind
  -- what follows an operand that stops at no parenthesis
  have left {res : XpathPredicate × Look} {ts' : List Token} (sees' : Sees e ts' res.2)
      (short : ts'.length ≤ rest.length) (stops : Stops res.2.look)
      (same : settled e .operand (depth + 1) behind rest = !behind) :
      RelationOutcome e depth behind (settled e .operand (depth + 1) behind rest) (rest.length + 1)
        (if res.2.look.str = [41] then (getLook res.2.pr).map fun look => (res.1, look)
          else .ok (.null, res.2)) := by
    rw [if_neg stops.1]
    exact ⟨ts', sees', Nat.le_succ_of_le short, .inr ⟨rfl, stops, same⟩⟩
  rcases inner with loop | ⟨look', ts', same, sees', short, stops, settled'⟩
  swap
  · rw [same]
    exact left sees' short stops settled'
  cases ran : getXpathBoolean fuel look₁ with
  | error stop =>
    rw [ran] at loop
    exact loop
  | ok res =>
    rw [ran] at loop
    obtain ⟨ts', sees', short, noOp, ⟨complete, now, same, settled'⟩ | ⟨-, -, stops, settled'⟩⟩ :=
      loop
    swap
    · refine left sees' short stops (settled'.trans ?_)
      simp
    obtain rfl : now = behind := same.resolve_right (Nat.succ_ne_zero depth)
    simp only
    by_cases close : res.2.look.str = [41]
    swap
    · refine left sees' short ⟨close, noOp⟩ (settled'.trans ?_)
      rw [settled_stops sees' ⟨close, noOp⟩]
      simp
    rw [if_pos close]
    obtain ⟨after, rfl⟩ := sees_cons sees' fun empty => by
      rw [empty] at close
      cases close
    have closes : ∀ t ts', res.2.look :: after = t :: ts' →
        settled e .relation (depth + 1) now (res.2.look :: after) =
          settled e .relation depth now ts' := by
      intro t ts' at'
      cases at'
      rw [settled, if_neg (by rw [noOp]; exact Bool.false_ne_true),
        if_pos ⟨close, Nat.succ_pos depth⟩]
      rfl
    rcases getLook_turn sees' closes fun nil => absurd nil (cons_ne_nil _ _) with
      ⟨look₂, ok₂, sees₂, turn₂⟩ | ⟨beyond, unsettled⟩
    · rw [ok₂]
      rw [length_cons] at short
      exact ⟨after, sees₂, by omega, .inl ⟨complete, settled'.trans turn₂⟩⟩
    · rw [beyond]
      exact ⟨rfl, settled'.trans unsettled⟩

theorem boolean_outcome (ih : Outcomes e fuel) {ts : List Token} {look : Look}
    (sees : Sees e ts look) (enough : 2 * ts.length + 2 ≤ fuel + 1) (depth : Nat) (behind : Bool) :
    BooleanOutcome e depth behind (settled e .operand depth behind ts) ts.length
      (getXpathBoolean (fuel + 1) look) := by
  rw [getXpathBoolean]
  have first := ih.relation sees (by omega) depth behind
  cases res : getXpathRelation fuel look with
  | error stop =>
    rw [res] at first
    exact .inl first
  | ok left =>
    rw [res] at first
    obtain ⟨ts', sees', short, ⟨complete, same⟩ | ⟨null, stops, same⟩⟩ := first
    · simp only [Except.bind]
      rw [if_neg fun null => by rw [null] at complete; exact complete, same]
      exact .inl ((ih.loop sees' (by omega) depth behind left.1 complete).mono short)
    · simp only [Except.bind]
      rw [if_pos null, same]
      obtain ⟨tree, look'⟩ := left
      obtain rfl := null
      exact .inr ⟨look', ts', rfl, sees', short, stops, rfl⟩

theorem loop_outcome (ih : Outcomes e fuel) {ts : List Token} {look : Look} (sees : Sees e ts look)
    (enough : 2 * ts.length + 1 ≤ fuel + 1) (depth : Nat) (behind : Bool) {left : XpathPredicate}
    (complete : left.Complete) :
    LoopOutcome e depth behind (settled e .relation depth behind ts) ts.length
      (booleanLoop (fuel + 1) left look) := by
  rw [booleanLoop]
  by_cases op : booleanOp look.look = true
  swap
  · rw [if_neg op]
    exact ⟨ts, sees, le_rfl, Bool.eq_false_of_not_eq_true op,
      .inl ⟨complete, behind, .inl rfl, rfl⟩⟩
  rw [if_pos op]
  obtain ⟨rest, rfl⟩ := sees_cons sees fun empty => by
    rw [empty] at op
    cases op
  have turns : ∀ t ts', look.look :: rest = t :: ts' →
      settled e .relation depth behind (look.look :: rest) =
        settled e .operand depth (behind || decide (depth = 0)) ts' := by
    intro t ts' at'
    cases at'
    rw [settled, if_pos op]
  rcases getLook_turn sees turns fun nil => absurd nil (cons_ne_nil _ _) with
    ⟨next, ok, sees₁, turn₁⟩ | ⟨beyond, unsettled⟩
  swap
  · rw [beyond]
    exact ⟨rfl, unsettled⟩
  rw [tail_cons] at sees₁ turn₁
  rw [length_cons] at enough ⊢
  rw [ok, turn₁]
  simp only [Except.bind]
  have right := ih.relation sees₁ (by omega) depth (behind || decide (depth = 0))
  cases res : getXpathRelation fuel next with
  | error stop =>
    rw [res] at right
    exact right
  | ok operand =>
    rw [res] at right
    obtain ⟨ts', sees', short, ⟨whole, same⟩ | ⟨null, stops, same⟩⟩ := right
    · simp only
      have more := (ih.loop sees' (by omega) depth (behind || decide (depth = 0))
        (.boolean look.look.str left operand.1) ⟨complete, whole⟩).mono
          (Nat.le_succ_of_le short)
      rw [same]
      cases ran : booleanLoop fuel (.boolean look.look.str left operand.1) operand.2 with
      | error stop =>
        rw [ran] at more
        exact more
      | ok res =>
        rw [ran] at more
        obtain ⟨ts'', sees'', short'', noOp, outcome⟩ := more
        refine ⟨ts'', sees'', short'', noOp, ?_⟩
        rcases outcome with ⟨all, now, kept, settled'⟩ | ⟨some, lacks, stops, settled'⟩
        · refine .inl ⟨all, now, ?_, settled'⟩
          by_cases zero : depth = 0
          · exact .inr zero
          · rw [decide_eq_false zero, Bool.or_false] at kept
            exact kept
        · refine .inr ⟨some, lacks, stops, settled'.trans ?_⟩
          rw [Bool.or_assoc, Bool.or_self]
    · simp only
      rw [null, same]
      cases fuel with
      | zero => omega
      | succ fuel =>
        rw [booleanLoop, if_neg (by rw [stops.2]; exact Bool.false_ne_true)]
        refine ⟨ts', sees', Nat.le_succ_of_le short, stops.2, .inr ⟨?_, ?_, stops, rfl⟩⟩
        · intro same
          cases same
        · exact fun all => all.2

end

/-- The recursion ends, and its outcome is by the tokens that are left. -/
theorem outcomes (e : Ending) (fuel : Nat) : Outcomes e fuel := by
  induction fuel with
  | zero =>
    constructor
    · intro ts look sees enough
      omega
    · intro ts look sees enough
      omega
    · intro ts look sees enough
      omega
  | succ fuel ih =>
    constructor
    · intro ts look sees enough depth behind
      exact relation_outcome ih sees enough depth behind
    · intro ts look sees enough depth behind
      exact boolean_outcome ih sees enough depth behind
    · intro ts look sees enough depth behind left complete
      exact loop_outcome ih sees enough depth behind complete

/-- Whether the text behind a `[` is settled. -/
def settledText (a : List Byte) : Bool :=
  settled (tokens (a.length + 1) a).2 .operand 0 false (tokens (a.length + 1) a).1

/-- A pointer to a tree is null or the tree is complete. -/
def XpathPredicate.Whole (p : XpathPredicate) : Prop := p = .null ∨ p.Complete

/-- A parse ends; it stays in the text with a tree that is whole where the text is settled. -/
theorem getXpathPredicate_outcome (a : List Byte) :
    (∃ p, getXpathPredicate a = .ok p ∧ (p.Whole ↔ settledText a = true)) ∨
      (getXpathPredicate a = .error .beyond ∧ settledText a = false) := by
  obtain ⟨lexed, short⟩ := tokens_lexed (a.length + 1) a (Nat.lt_succ_self _)
  unfold getXpathPredicate settledText
  generalize (tokens (a.length + 1) a).1 = ts at lexed short
  generalize (tokens (a.length + 1) a).2 = e at lexed
  rcases getLook_spec (Sees.token (t := emptyToken) lexed) with
    ⟨look, ok, sees⟩ | ⟨beyond, ⟨-, none, rfl⟩ | ⟨none, -⟩⟩
  · rw [tail_cons] at sees
    dsimp only at ok
    rw [ok]
    simp only [Except.bind]
    rcases (outcomes e (2 * a.length + 2)).boolean sees (by omega) 0 false with
      loop | ⟨look', ts', same, -, -, -, settled'⟩
    swap
    · rw [same, settled']
      exact .inl ⟨.null, rfl, iff_of_true (.inl rfl) rfl⟩
    cases ran : getXpathBoolean (2 * a.length + 2) look with
    | error stop =>
      rw [ran] at loop
      obtain ⟨rfl, unsettled⟩ := loop
      exact .inr ⟨rfl, unsettled⟩
    | ok res =>
      rw [ran] at loop
      refine .inl ⟨res.1, rfl, ?_⟩
      obtain ⟨ts', sees', -, noOp, ⟨complete, now, -, settled'⟩ | ⟨some, lacks, -, settled'⟩⟩ :=
        loop
      · exact iff_of_true (.inr complete) (settled'.trans (settled_outside sees' noOp now))
      · refine iff_of_false (fun whole => whole.elim some lacks) ?_
        rw [settled']
        exact Bool.false_ne_true
  · rw [tail_cons] at none
    subst none
    dsimp only at beyond
    rw [beyond]
    exact .inr ⟨rfl, rfl⟩
  · cases none

/-- The texts of the predicates of a path, for the number of steps that are left of `max` -/
def predicateTexts : Nat → List Byte → List (List Byte)
  | 0, _ => []
  | _ + 1, [] => []
  | left + 1, c :: cp =>
    (predicateText ((c :: cp).dropWhile partChar)).toList ++
      match afterStep ((c :: cp).dropWhile partChar) with
      | [] => []
      | d :: rest => if d = 47 then predicateTexts left rest else []

theorem parseSteps_outcome (left : Nat) (cp : List Byte) :
    (∃ steps, parseSteps left cp = .ok steps ∧ steps.length ≤ left ∧
      ((∀ step ∈ steps, step.predicate.Whole) ↔
        ∀ a ∈ predicateTexts left cp, settledText a = true)) ∨
    (parseSteps left cp = .error .beyond ∧ ∃ a ∈ predicateTexts left cp,
      settledText a = false) := by
  induction left generalizing cp with
  | zero =>
    refine .inl ⟨[], by rw [parseSteps], le_rfl, ?_⟩
    rw [predicateTexts]
    exact iff_of_true (forall_mem_nil _) (forall_mem_nil _)
  | succ left ih =>
    cases cp with
    | nil =>
      refine .inl ⟨[], by rw [parseSteps], Nat.zero_le _, ?_⟩
      rw [predicateTexts]
      exact iff_of_true (forall_mem_nil _) (forall_mem_nil _)
    | cons c cp =>
      rw [parseSteps, predicateTexts]
      generalize (c :: cp).dropWhile partChar = after
      generalize (c :: cp).takeWhile partChar = part
      have own : (∃ p, stepPredicate after = .ok p ∧
          (p.Whole ↔ ∀ a ∈ (predicateText after).toList, settledText a = true)) ∨
          (stepPredicate after = .error .beyond ∧
            ∃ a ∈ (predicateText after).toList, settledText a = false) := by
        unfold stepPredicate
        cases predicateText after with
        | none => exact .inl ⟨.null, rfl, iff_of_true (.inl rfl) (forall_mem_nil _)⟩
        | some a =>
          rcases getXpathPredicate_outcome a with ⟨p, ok, whole⟩ | ⟨beyond, unsettled⟩
          · refine .inl ⟨p, ok, ?_⟩
            rw [whole, Option.toList_some, forall_mem_singleton]
          · exact .inr ⟨beyond, a, mem_singleton_self a, unsettled⟩
      rcases own with ⟨p, ok, whole⟩ | ⟨beyond, a, mem, unsettled⟩
      swap
      · rw [beyond]
        exact .inr ⟨rfl, a, mem_append_left _ mem, unsettled⟩
      rw [ok]
      simp only [Except.bind]
      -- a path that stops with this step
      have last : ∃ steps, Except.ok (ε := Stop) [XpathLocationStep.mk part p] = .ok steps ∧
          steps.length ≤ left + 1 ∧ ((∀ step ∈ steps, step.predicate.Whole) ↔
            ∀ a ∈ (predicateText after).toList ++ [], settledText a = true) := by
        refine ⟨_, rfl, Nat.succ_le_succ (Nat.zero_le _), ?_⟩
        rw [forall_mem_singleton, append_nil]
        exact whole
      cases afterStep after with
      | nil => exact .inl last
      | cons d rest =>
        simp only
        by_cases slash : d = 47
        swap
        · rw [if_neg slash, if_neg slash]
          exact .inl last
        rw [if_pos slash, if_pos slash]
        rcases ih rest with ⟨steps, rest_ok, short, rest_whole⟩ | ⟨beyond, a, mem, unsettled⟩
        · rw [rest_ok]
          refine .inl ⟨_, rfl, Nat.succ_le_succ short, ?_⟩
          rw [forall_mem_cons, forall_mem_append]
          exact and_congr whole rest_whole
        · rw [beyond]
          exact .inr ⟨rfl, a, mem_append_right _ mem, unsettled⟩

/-- A run returns from within its input: -1 for an input that does not begin with `/`, and otherwise
at most `max` steps, whose trees are complete. -/
def Safe (xpathString : List Byte) (max : Int) : Prop :=
  ∃ res, zebraParseXpathStr xpathString max = .ok res ∧
    (res = none ↔ xpathString.head? ≠ some 47) ∧
    ∀ steps ∈ res, steps.length ≤ max.toNat ∧ ∀ step ∈ steps, step.predicate.Whole

/-- The parser always ends, and it stays inside of its input with complete trees if and only if the
predicates of the path are settled. -/
theorem zebraParseXpathStr_safe_iff (xpathString : List Byte) (max : Int) :
    zebraParseXpathStr xpathString max ≠ .error .fuel ∧
    (Safe xpathString max ↔ (xpathString.head? = some 47 →
      ∀ a ∈ predicateTexts max.toNat xpathString, settledText a = true)) := by
  unfold Safe zebraParseXpathStr
  by_cases slash : xpathString.head? = some 47
  swap
  · rw [if_neg slash]
    refine ⟨?_, iff_of_true ⟨none, rfl, iff_of_true rfl slash, ?_⟩ ?_⟩
    · intro same
      cases same
    · intro steps mem
      cases mem
    · exact fun slash' => absurd slash' slash
  rw [if_pos slash]
  rcases parseSteps_outcome max.toNat xpathString with
    ⟨steps, ok, short, whole⟩ | ⟨beyond, a, mem, unsettled⟩
  · rw [ok]
    refine ⟨?_, ?_, ?_⟩
    · intro same
      cases same
    · rintro ⟨res, same, -, all⟩ -
      obtain rfl : some steps = res := Except.ok.inj same
      exact whole.mp (all steps rfl).2
    · intro settled'
      refine ⟨some steps, rfl, iff_of_false (Option.some_ne_none _) (not_not.mpr slash), ?_⟩
      rintro steps' ⟨⟩
      exact ⟨short, whole.mpr (settled' slash)⟩
  · rw [beyond]
    refine ⟨?_, iff_of_false ?_ fun settled' => ?_⟩
    · intro same
      cases same
    · rintro ⟨res, same, -⟩
      cases same
    · have wrong := settled' slash a mem
      rw [unsettled] at wrong
      cases wrong

/-- `/a[b`: the name is read, the end of the text is taken for an operator, and its value is read
behind it. -/
theorem not_zebraParseXpathStr_safe : ¬ ∀ xpathString max, Safe xpathString max := by
  intro safe
  obtain ⟨res, ok, -⟩ := safe [47, 97, 91, 98] 10
  have stops : zebraParseXpathStr [47, 97, 91, 98] 10 = .error .beyond := by decide
  rw [stops] at ok
  cases ok

end Zebra.Xpath
