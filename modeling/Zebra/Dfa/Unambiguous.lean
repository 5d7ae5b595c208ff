import Zebra.Dfa.Grammar

/-!
# Patterns are unambiguous

A pattern denotes at most one language: its characters make tokens in one way, and the tokens make
an expression in one way, which is seen on an account of the grammar that goes through them from the
left.
-/

namespace Zebra.Dfa

open List

theorem ClassFrom.unique {c : Nat} {esc : Bool} {ptr rest rest' : List Byte} {set set' : Nat → Prop}
    (first : ClassFrom c esc ptr set rest) (second : ClassFrom c esc ptr set' rest') :
    set = set' ∧ rest = rest' := by
  induction first generalizing set' rest' with
  | eos =>
    cases second with
    | eos => exact ⟨rfl, rfl⟩
    | single not_eos | range not_eos | openRange not_eos => exact absurd rfl not_eos
    | openEnd not_eos => exact absurd rfl not_eos
  | close =>
    cases second with
    | close => exact ⟨rfl, rfl⟩
    | single _ open_ | range _ open_ | openRange _ open_ => exact absurd ⟨rfl, rfl⟩ open_
    | openEnd _ open_ => exact absurd ⟨rfl, rfl⟩ open_
  | single not_eos open_ item no_hyphen _ ih =>
    cases second with
    | eos => exact absurd rfl not_eos
    | close => exact absurd ⟨rfl, rfl⟩ open_
    | single _ _ item' _ more =>
      obtain ⟨rfl, rfl, rfl, rfl⟩ := by simpa using item.symm.trans item'
      obtain ⟨rfl, rfl⟩ := ih more
      exact ⟨rfl, rfl⟩
    | _ => simp_all
  | range not_eos open_ item next last_ne last_open _ ih =>
    cases second with
    | eos => exact absurd rfl not_eos
    | close => exact absurd ⟨rfl, rfl⟩ open_
    | range _ _ item' next' _ _ more =>
      obtain ⟨rfl, rfl⟩ := by simpa using item.symm.trans item'
      obtain ⟨rfl, rfl, rfl⟩ := by simpa using next.symm.trans next'
      obtain ⟨rfl, rfl⟩ := ih more
      exact ⟨rfl, rfl⟩
    | _ => simp_all
  | openRange not_eos open_ item next =>
    cases second with
    | close => exact absurd ⟨rfl, rfl⟩ open_
    | eos => exact absurd rfl not_eos
    | _ => simp_all
  | openEnd not_eos open_ item next =>
    cases second with
    | close => exact absurd ⟨rfl, rfl⟩ open_
    | eos => exact absurd rfl not_eos
    | _ => simp_all

theorem Class.unique {ptr rest rest' : List Byte} {set set' : Nat → Prop}
    (first : Class ptr set rest) (second : Class ptr set' rest') : set = set' ∧ rest = rest' := by
  cases first with
  | plain read positive members =>
    cases second with
    | plain read' _ members' =>
      obtain ⟨rfl, rfl, rfl⟩ := by simpa using read.symm.trans read'
      exact members.unique members'
    | _ => simp_all
  | negated read members =>
    cases second with
    | negated read' members' =>
      obtain rfl := by simpa using read.symm.trans read'
      obtain ⟨rfl, rfl⟩ := members.unique members'
      exact ⟨rfl, rfl⟩
    | _ => simp_all

theorem Reads.unique {inside inside' inside'' : Bool} {ptr rest rest' : List Byte}
    {tok tok' : Token}
    (first : Reads inside ptr tok inside' rest) (second : Reads inside ptr tok' inside'' rest') :
    tok = tok' ∧ inside' = inside'' ∧ rest = rest' := by
  induction first with
  | quote next _ ih =>
    cases second with
    | quote next' reads =>
      obtain rfl := by simpa using next.symm.trans next'
      exact ih reads
    | _ => simp_all
  | char next some quoted =>
    cases second <;> simp_all
  | chars next class_ =>
    cases second with
    | chars next' class' =>
      obtain rfl := by simpa using next.symm.trans next'
      obtain ⟨rfl, rfl⟩ := class_.unique class'
      exact ⟨rfl, rfl, rfl⟩
    | _ => simp_all
  | op next =>
    cases second <;> simp_all
  | plain next _ _ _ free =>
    cases second with
    | op next' _ _ _ taken =>
      obtain ⟨rfl, rfl⟩ := by simpa using next.symm.trans next'
      exact absurd (free.symm.trans taken) (by simp)
    | _ => simp_all

theorem Ends.not_reads {inside inside' : Bool} {ptr rest : List Byte} {tok : Token}
    (ends : Ends inside ptr) : ¬ Reads inside ptr tok inside' rest := by
  induction ends with
  | quote next _ ih =>
    intro reads
    cases reads with
    | quote next' reads =>
      obtain rfl := by simpa using next.symm.trans next'
      exact ih reads
    | _ => simp_all
  | eos =>
    intro reads
    cases reads with
    | quote next' => simp [nextchar] at next'
    | char next' some => exact some (Prod.mk.inj next').1.symm
    | chars next' => simp [nextchar] at next'
    | op next' some | plain next' some => exact some (Prod.mk.inj next').1.symm
  | blank next =>
    intro reads
    cases reads <;> simp_all

theorem Tokens.unique {inside : Bool} {ptr : List Byte} {toks toks' : List Token}
    (first : Tokens inside ptr toks) (second : Tokens inside ptr toks') : toks = toks' := by
  induction first generalizing toks' with
  | eos ends =>
    cases second with
    | eos => rfl
    | cons reads => exact absurd reads ends.not_reads
  | cons reads _ ih =>
    cases second with
    | eos ends => exact absurd reads ends.not_reads
    | cons reads' tokens =>
      obtain ⟨rfl, rfl, rfl⟩ := reads.unique reads'
      rw [ih tokens]

def Token.Repeats : Token → Prop
  | .op .clos0 | .op .clos1 | .op .quest => True
  | _ => False

def Token.Starts : Token → Prop
  | .char _ | .chars _ | .op .any | .op .anyz | .op .lp => True
  | _ => False

def Token.Bar : Token → Prop
  | .op .alt => True
  | _ => False

def Lacks (kind : Token → Prop) (rest : List Token) : Prop := ∀ tok ∈ rest.head?, ¬ kind tok

theorem Lacks.head {kind : Token → Prop} {rest more : List Token} {tok : Token}
    (lacks : Lacks kind rest) (same : rest = tok :: more) : ¬ kind tok :=
  lacks tok (same ▸ rfl)

theorem Lacks.nil {kind : Token → Prop} : Lacks kind [] := fun _ none => absurd none (by simp)

theorem Lacks.cons {kind : Token → Prop} {tok : Token} {rest : List Token} (other : ¬ kind tok) :
    Lacks kind (tok :: rest) := by
  rintro _ ⟨⟩
  exact other

/-- What is gone through: an expression, or what is left of one with the language so far. -/
inductive Stage where
  | atom
  | repeated
  | factors
  | moreFactors (l : Language Letter)
  | alternatives
  | moreAlternatives (l : Language Letter)

/-- `Run anyset stage toks l rest`: from the left, the tokens are an expression for `l`, as far as
it goes, in front of `rest`. -/
inductive Run (anyset : BSet) : Stage → List Token → Language Letter → List Token → Prop
  | char {c rest} : Run anyset .atom (.char c :: rest) (charsLang (· = c)) rest
  | chars {set rest} : Run anyset .atom (.chars set :: rest) (charsLang set) rest
  | any {rest} : Run anyset .atom (.op .any :: rest) (charsLang (BSet.Mem anyset)) rest
  | anyz {rest} : Run anyset .atom (.op .anyz :: rest) (charsLang (BSet.Mem anyset) + 1) rest
  | group {toks l rest} : Run anyset .alternatives toks l (.op .rp :: rest) →
      Run anyset .atom (.op .lp :: toks) l rest
  | once {toks l rest} : Run anyset .atom toks l rest → Lacks Token.Repeats rest →
      Run anyset .repeated toks l rest
  | clos0 {toks l rest} : Run anyset .atom toks l (.op .clos0 :: rest) →
      Run anyset .repeated toks (KStar.kstar l) rest
  | clos1 {toks l rest} : Run anyset .atom toks l (.op .clos1 :: rest) →
      Run anyset .repeated toks (l * KStar.kstar l) rest
  | quest {toks l rest} : Run anyset .atom toks l (.op .quest :: rest) →
      Run anyset .repeated toks (l + 1) rest
  | factors {toks l mid l' rest} : Run anyset .repeated toks l mid →
      Run anyset (.moreFactors l) mid l' rest → Run anyset .factors toks l' rest
  | lastFactor {l rest} : Lacks Token.Starts rest → Run anyset (.moreFactors l) rest l rest
  | factor {l toks l' mid l'' rest} : Run anyset .repeated toks l' mid →
      Run anyset (.moreFactors (l * l')) mid l'' rest → Run anyset (.moreFactors l) toks l'' rest
  | alternatives {toks l mid l' rest} : Run anyset .factors toks l mid →
      Run anyset (.moreAlternatives l) mid l' rest → Run anyset .alternatives toks l' rest
  | lastAlternative {l rest} : Lacks Token.Bar rest → Run anyset (.moreAlternatives l) rest l rest
  | alternative {l toks l' mid l'' rest} : Run anyset .factors toks l' mid →
      Run anyset (.moreAlternatives (l + l')) mid l'' rest →
      Run anyset (.moreAlternatives l) (.op .alt :: toks) l'' rest

variable {anyset : BSet} {toks rest rest' : List Token} {l l' : Language Letter} {stage : Stage}

/-- An atom, repeated or not, starts with the first of its tokens. -/
theorem Run.starts (run : Run anyset stage toks l rest)
    (is : stage = .atom ∨ stage = .repeated) : ∃ tok ∈ toks.head?, tok.Starts := by
  induction run with
  | char => exact ⟨_, rfl, trivial⟩
  | chars => exact ⟨_, rfl, trivial⟩
  | any => exact ⟨_, rfl, trivial⟩
  | anyz => exact ⟨_, rfl, trivial⟩
  | group => exact ⟨_, rfl, trivial⟩
  | once _ _ ih => exact ih (.inl rfl)
  | clos0 _ ih => exact ih (.inl rfl)
  | clos1 _ ih => exact ih (.inl rfl)
  | quest _ ih => exact ih (.inl rfl)
  | _ => simp at is

theorem Run.unique (run : Run anyset stage toks l rest) (run' : Run anyset stage toks l' rest') :
    l = l' ∧ rest = rest' := by
  induction run generalizing l' rest' with
  | char | chars | any | anyz => cases run'; exact ⟨rfl, rfl⟩
  | group _ ih =>
    cases run' with
    | group run' =>
      obtain ⟨rfl, same⟩ := ih run'
      exact ⟨rfl, (cons.inj same).2⟩
  | once _ last ih =>
    cases run' with
    | once run' => exact ih run'
    | clos0 run' | clos1 run' | quest run' => exact (last.head (ih run').2 trivial).elim
  | clos0 _ ih =>
    cases run' with
    | once run' last => exact (last.head (ih run').2.symm trivial).elim
    | clos0 run' =>
      obtain ⟨rfl, same⟩ := ih run'
      exact ⟨rfl, (cons.inj same).2⟩
    | clos1 run' | quest run' => exact absurd (ih run').2 (by simp)
  | clos1 _ ih =>
    cases run' with
    | once run' last => exact (last.head (ih run').2.symm trivial).elim
    | clos1 run' =>
      obtain ⟨rfl, same⟩ := ih run'
      exact ⟨rfl, (cons.inj same).2⟩
    | clos0 run' | quest run' => exact absurd (ih run').2 (by simp)
  | quest _ ih =>
    cases run' with
    | once run' last => exact (last.head (ih run').2.symm trivial).elim
    | quest run' =>
      obtain ⟨rfl, same⟩ := ih run'
      exact ⟨rfl, (cons.inj same).2⟩
    | clos0 run' | clos1 run' => exact absurd (ih run').2 (by simp)
  | factors _ _ ih ih' =>
    cases run' with
    | factors run' more =>
      obtain ⟨rfl, rfl⟩ := ih run'
      exact ih' more
  | lastFactor last =>
    cases run' with
    | lastFactor => exact ⟨rfl, rfl⟩
    | factor run' =>
      obtain ⟨tok, first, starts⟩ := run'.starts (.inr rfl)
      exact absurd starts (last tok first)
  | factor run more ih ih' =>
    cases run' with
    | lastFactor last =>
      obtain ⟨tok, first, starts⟩ := run.starts (.inr rfl)
      exact absurd starts (last tok first)
    | factor run' more' =>
      obtain ⟨rfl, rfl⟩ := ih run'
      exact ih' more'
  | alternatives _ _ ih ih' =>
    cases run' with
    | alternatives run' more =>
      obtain ⟨rfl, rfl⟩ := ih run'
      exact ih' more
  | lastAlternative last =>
    cases run' with
    | lastAlternative => exact ⟨rfl, rfl⟩
    | alternative => exact (last.head rfl trivial).elim
  | alternative _ _ ih ih' =>
    cases run' with
    | lastAlternative last => exact (last.head rfl trivial).elim
    | alternative run' more =>
      obtain ⟨rfl, rfl⟩ := ih run'
      exact ih' more

/-- What is gone through when an expression of a level stands in front of anything that does not go
on with it. -/
def Runs (anyset : BSet) (toks : List Token) (l : Language Letter) : Level → Prop
  | .atom => ∀ rest, Run anyset .atom (toks ++ rest) l rest
  | .repeated => ∀ rest, Lacks Token.Repeats rest → Run anyset .repeated (toks ++ rest) l rest
  | .factors => ∀ rest l' fin, Lacks Token.Repeats rest → Run anyset (.moreFactors l) rest l' fin →
      Run anyset .factors (toks ++ rest) l' fin
  | .alternatives => ∀ rest l' fin, Lacks Token.Repeats rest → Lacks Token.Starts rest →
      Run anyset (.moreAlternatives l) rest l' fin → Run anyset .alternatives (toks ++ rest) l' fin

theorem Denotes.starts {level : Level} (denotes : Denotes anyset level toks l) :
    ∃ tok more, toks = tok :: more ∧ tok.Starts := by
  induction denotes with
  | char | chars | any | anyz | group => exact ⟨_, _, rfl, trivial⟩
  | atom _ ih => exact ih
  | repeated _ ih => exact ih
  | factors _ ih => exact ih
  | clos0 _ ih | clos1 _ ih | quest _ ih =>
    obtain ⟨tok, more, rfl, starts⟩ := ih
    exact ⟨tok, _, rfl, starts⟩
  | cat _ _ ih | alt _ _ ih =>
    obtain ⟨tok, more, rfl, starts⟩ := ih
    exact ⟨tok, _, rfl, starts⟩

theorem Token.Starts.not_repeats {tok : Token} (starts : tok.Starts) : ¬ tok.Repeats := by
  cases tok with
  | char => exact id
  | chars => exact id
  | op code => cases code <;> simp_all [Token.Starts, Token.Repeats]

theorem Denotes.runs {level : Level} (denotes : Denotes anyset level toks l) :
    Runs anyset toks l level := by
  induction denotes with
  | char => exact fun rest => .char
  | chars => exact fun rest => .chars
  | any => exact fun rest => .any
  | anyz => exact fun rest => .anyz
  | @group toks l _ ih =>
    intro rest
    have inner := ih (.op .rp :: rest) l (.op .rp :: rest) (Lacks.cons id) (Lacks.cons id)
      (.lastAlternative (Lacks.cons id))
    rw [cons_append, cons_append, append_assoc]
    exact .group inner
  | atom _ ih => exact fun rest last => .once (ih rest) last
  | clos0 _ ih =>
    intro rest _
    rw [append_assoc]
    exact .clos0 (ih _)
  | clos1 _ ih =>
    intro rest _
    rw [append_assoc]
    exact .clos1 (ih _)
  | quest _ ih =>
    intro rest _
    rw [append_assoc]
    exact .quest (ih _)
  | repeated _ ih => exact fun rest l' fin last more => .factors (ih rest last) more
  | cat _ denotes ih ih' =>
    intro rest l'' fin last more
    obtain ⟨tok, behind, rfl, starts⟩ := denotes.starts
    rw [append_assoc]
    apply ih _ _ _ (Lacks.cons starts.not_repeats)
    exact .factor (ih' rest last) more
  | factors _ ih =>
    exact fun rest l' fin last closed more => .alternatives
      (ih rest _ _ last (.lastFactor closed)) more
  | alt _ _ ih ih' =>
    intro rest l'' fin last closed more
    rw [append_assoc]
    apply ih _ _ _ (Lacks.cons id) (Lacks.cons id)
    exact .alternative (ih' rest _ _ last (.lastFactor closed)) more

/-- An expression that fills its tokens up to an end. -/
theorem Denotes.run_end (denotes : Denotes anyset .alternatives toks l) {rest : List Token}
    (none : Lacks Token.Repeats rest) (closed : Lacks Token.Starts rest)
      (last : Lacks Token.Bar rest) :
    Run anyset .alternatives (toks ++ rest) l rest :=
  denotes.runs rest l rest none closed (.lastAlternative last)

theorem Denotes.not_line (denotes : Denotes anyset .alternatives toks l) {front : List Token}
    (denotes' : Denotes anyset .alternatives front l') : toks ≠ front ++ [.op .endAnchor] := by
  rintro rfl
  have whole := denotes.run_end Lacks.nil Lacks.nil Lacks.nil
  rw [append_nil] at whole
  have line := @Denotes.run_end _ _ _ denotes' [.op .endAnchor] (Lacks.cons id) (Lacks.cons id)
      (Lacks.cons id)
  exact absurd (whole.unique line).2 (by simp)

theorem Denotes.unique (denotes : Denotes anyset .alternatives toks l)
    (denotes' : Denotes anyset .alternatives toks l') : l = l' :=
  ((denotes.run_end Lacks.nil Lacks.nil Lacks.nil).unique
    (denotes'.run_end Lacks.nil Lacks.nil Lacks.nil)).1

theorem PatternLang.unique (first : PatternLang anyset toks l)
    (second : PatternLang anyset toks l') :
    l = l' := by
  generalize same : toks = toks' at second
  cases first with
  | expr denotes =>
    cases second with
    | expr denotes' => exact denotes.unique (same ▸ denotes')
    | line denotes' => exact absurd same (denotes.not_line denotes')
    | newline =>
      obtain ⟨tok, more, rfl, starts⟩ := denotes.starts
      obtain ⟨rfl, -⟩ := cons.inj same
      exact absurd starts id
  | line denotes =>
    cases second with
    | expr denotes' => exact absurd same.symm (denotes'.not_line denotes)
    | line denotes' =>
      obtain rfl := append_cancel_right same
      rw [denotes.unique denotes']
    | newline =>
      obtain ⟨tok, more, rfl, starts⟩ := denotes.starts
      exact absurd (congrArg length same) (by simp)
  | newline =>
    cases second with
    | expr denotes' =>
      obtain ⟨tok, more, rfl, starts⟩ := denotes'.starts
      obtain ⟨rfl, -⟩ := cons.inj same
      exact absurd starts id
    | line denotes' =>
      obtain ⟨tok, more, rfl, starts⟩ := denotes'.starts
      exact absurd (congrArg length same) (by simp)
    | newline => rfl

/-- An expression does not start with `^`. -/
theorem PatternLang.not_anchored {more : List Token}
    (first : PatternLang anyset (.op .startAnchor :: more) l) : False := by
  generalize same : Token.op .startAnchor :: more = toks at first
  cases first with
  | expr denotes | line denotes =>
    obtain ⟨tok, more, rfl, starts⟩ := denotes.starts
    obtain ⟨rfl, -⟩ := cons.inj same
    exact starts
  | newline => exact absurd same (by simp)

theorem PatternDenotes.unique {pattern : List Byte} (first : PatternDenotes anyset pattern l)
    (second : PatternDenotes anyset pattern l') : l = l' := by
  obtain ⟨tokens, lang⟩ | ⟨tokens, lang⟩ := first
  · obtain ⟨tokens', lang'⟩ | ⟨tokens', lang'⟩ := second
    · obtain rfl := tokens.unique tokens'
      exact lang.unique lang'
    · obtain rfl := tokens.unique tokens'
      exact lang.not_anchored.elim
  · obtain ⟨tokens', lang'⟩ | ⟨tokens', lang'⟩ := second
    · obtain rfl := tokens'.unique tokens
      exact lang'.not_anchored.elim
    · obtain ⟨-, rfl⟩ := cons.inj (tokens.unique tokens')
      exact lang.unique lang'

end Zebra.Dfa
