import Zebra.Index.SourceExpr

/-!
# Source expressions of any text

An evaluation stops at the latest at the end of the text, and uses words alone that have been set
where `data` and `tag` stand at nodes of their kinds.
-/

namespace Zebra.Source

variable {atoiN : List Byte → Int} {n : SourceNode}

/-- What there is to read: the bytes, and the token that has been taken off -/
def SourceParser.measure (p : SourceParser) : Nat :=
  p.src.length + if p.look = .char 0 then 0 else 1

/-- `data` is a token at a node with data alone, and `tag` at a tag. -/
def Suits (n : SourceNode) (p : SourceParser) : Prop :=
  ∀ k, ((SourceParser.lex^[k] p).look = .text [100, 97, 116, 97] → ∃ text, n = .data text) ∧
    ((SourceParser.lex^[k] p).look = .text [116, 97, 103] →
      ∃ tag attributes, n = .tag tag attributes)

theorem Suits.lex {p : SourceParser} (suits : Suits n p) : Suits n p.lex := fun k => suits (k + 1)

theorem measure_spLex (src : List Byte) : (spLex src).measure ≤ src.length := by
  have blanks := (List.dropWhile_suffix (p := (· == 32)) (l := src)).length_le
  rw [spLex]
  generalize src.dropWhile (· == 32) = t at blanks ⊢
  by_cases some : t.takeWhile tokChar ≠ []
  · have split := congrArg List.length (List.takeWhile_append_dropWhile (p := tokChar) (l := t))
    have pos := List.length_pos_iff.mpr some
    rw [List.length_append] at split
    rw [if_pos some, SourceParser.measure, if_neg (by simp)]
    dsimp only
    omega
  · rw [if_neg some, SourceParser.measure]
    dsimp only
    cases t with
    | nil => exact Nat.zero_le _
    | cons c t =>
      rw [List.headD_cons, List.tail_cons]
      by_cases zero : c = 0
      · rw [if_pos zero, zero, if_pos rfl]
        exact blanks
      · rw [if_neg zero, if_neg (by simpa using zero)]
        exact blanks

theorem measure_lex {p : SourceParser} (more : p.look ≠ .char 0) : p.lex.measure < p.measure := by
  have less := measure_spLex p.src
  have own : p.measure = p.src.length + 1 := congrArg _ (if_neg more)
  rw [SourceParser.lex]
  omega

def Later (n : SourceNode) (p q : SourceParser) : Prop := Suits n q ∧ q.measure < p.measure

theorem Later.lex {p : SourceParser} (suits : Suits n p) (more : p.look ≠ .char 0) :
    Later n p p.lex := ⟨suits.lex, measure_lex more⟩

theorem Later.trans {p q r : SourceParser} (first : Later n p q) (second : Later n q r) :
    Later n p r := ⟨second.1, second.2.trans first.2⟩

/-- All attributes of a tag have values. -/
def Valued (n : SourceNode) : Prop :=
  ∀ tag attributes, n = .tag tag attributes → ∀ p ∈ attributes, p.value.isSome = true

/-- Why an evaluation may fail that uses no word that is unset -/
def Fails (n : SourceNode) (stop : EvalStop) : Prop := stop = .beyond ∨ (stop = .null ∧ ¬ Valued n)

theorem fails_beyond : Fails n .beyond := .inl rfl

/-- An evaluation that uses no word that is unset: it reads outside of a string or takes the length
of a value that is not there, it gives up, or it has set the word and comes to a later place. -/
inductive Sound (n : SourceNode) (p : SourceParser) : Except EvalStop Res → Prop
  | fails {stop : EvalStop} : Fails n stop → Sound n p (.error stop)
  | stops (w : Word) (q : SourceParser) : Sound n p (.ok ⟨false, w, q⟩)
  | sets {q : SourceParser} (v : View) : Later n p q → Sound n p (.ok ⟨true, .view v, q⟩)

theorem View.bytes_cases (v : View) : (∃ s, v.bytes = .ok s) ∨ v.bytes = .error .beyond := by
  rw [View.bytes]
  split_ifs
  · exact .inl ⟨_, rfl⟩
  · exact .inl ⟨_, rfl⟩
  · exact .inr rfl

theorem findAttr_cases (v : View) (attributes : List Attr) :
    (∃ p, findAttr attributes (.view v) = .ok p ∧ ∀ own, p = some own → own ∈ attributes) ∨
      findAttr attributes (.view v) = .error .beyond := by
  induction attributes with
  | nil =>
    refine .inl ⟨none, rfl, ?_⟩
    rintro own ⟨⟩
  | cons p rest ih =>
    rw [findAttr, Word.bytes]
    rcases v.bytes_cases with ⟨s, same⟩ | same
    · rw [same]
      simp only [Except.bind, memcmpSame]
      by_cases length : p.name.length = s.length
      · rw [if_pos length]
        exact .inl ⟨_, rfl, fun own same => Option.some.inj same ▸ List.mem_cons_self⟩
      rw [if_neg length]
      by_cases front : s.isPrefixOf (p.name ++ [0]) = true
      · rw [if_pos front]
        exact .inl ⟨_, rfl, fun own same => Option.some.inj same ▸ List.mem_cons_self⟩
      rw [if_neg front]
      by_cases whole : (p.name ++ [0]).isPrefixOf s = true
      · rw [if_pos whole]
        exact .inr rfl
      · rw [if_neg whole]
        rcases ih with ⟨p, found, mem⟩ | beyond
        · exact .inl ⟨p, found, fun own same => List.mem_cons_of_mem _ (mem own same)⟩
        · exact .inr beyond
    · rw [same]
      exact .inr rfl

theorem Sound.cases {p : SourceParser} {run : Except EvalStop Res} (sound : Sound n p run) :
    (∃ stop, run = .error stop ∧ Fails n stop) ∨ (∃ w q, run = .ok ⟨false, w, q⟩) ∨
      ∃ v q, Later n p q ∧ run = .ok ⟨true, .view v, q⟩ := by
  cases sound with
  | @fails stop fails => exact .inl ⟨stop, rfl, fails⟩
  | stops w q => exact .inr (.inl ⟨w, q, rfl⟩)
  | @sets q v later => exact .inr (.inr ⟨v, q, later, rfl⟩)

theorem rangeEnd_sound {p q : SourceParser} (v : View) (start : Int) (len : Option Int)
    (later : Later n p q) : Sound n p (rangeEnd (.view v) start len q) := by
  rw [rangeEnd]
  by_cases close : q.look ≠ .char 41
  · rw [if_pos close]
    exact .stops _ _
  · rw [if_neg close, clip]
    have further := later.trans (.lex later.1 (by rw [not_not.mp close]; decide))
    split_ifs
    · exact .sets _ further
    · exact .sets _ further

section

variable {expr : Word → SourceParser → Except EvalStop Res} {p : SourceParser}
  (sound : ∀ w q, Later n p q → Sound n q (expr w q))

include sound

theorem spAttr_sound (w : Word) (suits : Suits n p) (more : p.look ≠ .char 0) :
    Sound n p (spAttr expr n w p) := by
  have later := Later.lex suits more
  rw [spAttr]
  by_cases paren : p.lex.look ≠ .char 40
  · rw [if_pos paren]
    exact .stops _ _
  rw [if_neg paren]
  have later' := later.trans (.lex later.1 (by rw [not_not.mp paren]; decide))
  rcases (sound .unset _ later').cases with ⟨stop, same, fails⟩ | ⟨w', q, same⟩ | ⟨v, q,
    further, same⟩
  · rw [same]
    exact .fails fails
  · rw [same]
    exact .stops _ _
  · rw [same]
    simp only [Except.bind]
    rw [if_neg Bool.noConfusion]
    have found : (∃ value, attrValue n (.view v) = .ok value) ∨
        ∃ stop, attrValue n (.view v) = .error stop ∧ Fails n stop := by
      cases n with
      | tag tag attributes =>
        rw [attrValue]
        rcases findAttr_cases v attributes with ⟨_ | ⟨name, _ | value⟩, same, mem⟩ | same
        · rw [same]
          exact .inl ⟨_, rfl⟩
        · rw [same]
          refine .inr ⟨.null, rfl, .inr ⟨rfl, fun valued => ?_⟩⟩
          exact Bool.noConfusion (valued tag attributes rfl _ (mem _ rfl))
        · rw [same]
          exact .inl ⟨value, rfl⟩
        · rw [same]
          exact .inr ⟨.beyond, rfl, fails_beyond⟩
      | _ => exact .inl ⟨[], rfl⟩
    rcases found with ⟨value, same⟩ | ⟨stop, same, fails⟩
    · rw [same]
      simp only
      by_cases close : q.look ≠ .char 41
      · rw [if_pos close]
        exact .stops _ _
      · rw [if_neg close]
        exact .sets _ ((later'.trans further).trans
          (.lex further.1 (by rw [not_not.mp close]; decide)))
    · rw [same]
      exact .fails fails

theorem spRange_sound (w : Word) (suits : Suits n p) (more : p.look ≠ .char 0) :
    Sound n p (spRange atoiN expr w p) := by
  have later := Later.lex suits more
  rw [spRange]
  by_cases paren : p.lex.look ≠ .char 40
  · rw [if_pos paren]
    exact .stops _ _
  rw [if_neg paren]
  have later₁ := later.trans (.lex later.1 (by rw [not_not.mp paren]; decide))
  rcases (sound w _ later₁).cases with ⟨stop, same, fails⟩ | ⟨w', q, same⟩ | ⟨v, q, further, same⟩
  · rw [same]
    exact .fails fails
  · rw [same]
    simp only [Except.bind]
    rw [if_pos (.inl trivial)]
    exact .stops _ _
  rw [same]
  simp only [Except.bind]
  by_cases comma : q.look ≠ .char 44
  · rw [if_pos (.inr comma)]
    exact .stops _ _
  rw [if_neg (by simpa using not_not.mp comma)]
  have later₂ := (later₁.trans further).trans (.lex further.1 (by rw [not_not.mp comma]; decide))
  rcases (sound .unset _ later₂).cases with ⟨stop, same, fails⟩ | ⟨w', q', same⟩ | ⟨start, q',
    further', same⟩
  · rw [same]
    exact .fails fails
  · rw [same]
    exact .stops _ _
  rw [same]
  simp only
  rw [if_neg Bool.noConfusion, Word.bytes]
  rcases start.bytes_cases with ⟨digits, same⟩ | same
  · rw [same]
    simp only
    have later₃ := later₂.trans further'
    by_cases comma' : q'.look ≠ .char 44
    · rw [if_pos comma']
      exact rangeEnd_sound v _ _ later₃
    rw [if_neg comma']
    have later₄ := later₃.trans (.lex further'.1 (by rw [not_not.mp comma']; decide))
    rcases (sound (.view start) _ later₄).cases with ⟨stop, same, fails⟩ | ⟨w', q'', same⟩ | ⟨len,
      q'', last, same⟩
    · rw [same]
      exact .fails fails
    · rw [same]
      exact .stops _ _
    rw [same]
    simp only
    rw [if_neg Bool.noConfusion, Word.bytes]
    rcases len.bytes_cases with ⟨digits', same⟩ | same
    · rw [same]
      exact rangeEnd_sound v _ _ (later₄.trans last)
    · rw [same]
      exact .fails fails_beyond
  · rw [same]
    exact .fails fails_beyond

/-- The loop of `first` fails, gives up, or comes to its end. -/
theorem firstLoop_sound (v : View) (rounds : Nat) (minPos : Option Nat) {q : SourceParser}
    (later : Later n p q) (enough : q.measure < rounds) :
    (∃ stop, firstLoop expr (.view v) rounds minPos q = .error stop ∧ Fails n stop) ∨
      ∃ ok found q', firstLoop expr (.view v) rounds minPos q = .ok (ok, found, q') ∧
        (ok = true → Later n p q') := by
  induction rounds generalizing minPos q with
  | zero => exact absurd enough (Nat.not_lt_zero _)
  | succ rounds ih =>
    rw [firstLoop]
    by_cases comma : q.look ≠ .char 44
    · rw [if_pos comma]
      exact .inr ⟨true, minPos, q, rfl, fun _ => later⟩
    rw [if_neg comma]
    have next := Later.lex later.1 (p := q) (by rw [not_not.mp comma]; decide)
    rcases (sound .unset _ (later.trans next)).cases with
      ⟨stop, same, fails⟩ | ⟨w', q', same⟩ | ⟨search, q', further, same⟩
    · rw [same]
      exact .inl ⟨stop, rfl, fails⟩
    · rw [same]
      exact .inr ⟨false, minPos, q', rfl, fun no => Bool.noConfusion no⟩
    rw [same]
    simp only [Except.bind]
    rw [if_neg Bool.noConfusion, Word.bytes]
    rcases v.bytes_cases with ⟨bytes, same⟩ | same
    · rw [same]
      simp only
      have searched : (∃ found, searchWord bytes (.view search) minPos = .ok found) ∨
          searchWord bytes (.view search) minPos = .error .beyond := by
        rw [searchWord, Word.bytes]
        by_cases empty : bytes = []
        · rw [if_pos empty]
          exact .inl ⟨minPos, rfl⟩
        rw [if_neg empty]
        rcases search.bytes_cases with ⟨t, same⟩ | same
        · rw [same]
          simp only [Except.bind]
          cases firstMatch t 0 bytes with
          | none => exact .inl ⟨minPos, rfl⟩
          | some i => exact .inl ⟨_, rfl⟩
        · rw [same]
          exact .inr rfl
      rcases searched with ⟨found, same⟩ | same
      · rw [same]
        have less := next.2
        have less' := further.2
        exact ih found ((later.trans next).trans further) (by omega)
      · rw [same]
        exact .inl ⟨.beyond, rfl, fails_beyond⟩
    · rw [same]
      exact .inl ⟨.beyond, rfl, fails_beyond⟩

theorem spFirst_sound (fuel : Nat) (w : Word) (suits : Suits n p) (more : p.look ≠ .char 0)
    (enough : p.measure ≤ fuel) : Sound n p (spFirst expr fuel w p) := by
  have later := Later.lex suits more
  rw [spFirst]
  by_cases paren : p.lex.look ≠ .char 40
  · rw [if_pos paren]
    exact .stops _ _
  rw [if_neg paren]
  have later₁ := later.trans (.lex later.1 (by rw [not_not.mp paren]; decide))
  rcases (sound w _ later₁).cases with ⟨stop, same, fails⟩ | ⟨w', q, same⟩ | ⟨v, q, further, same⟩
  · rw [same]
    exact .fails fails
  · rw [same]
    exact .stops _ _
  rw [same]
  simp only [Except.bind]
  rw [if_neg Bool.noConfusion]
  have later₂ := later₁.trans further
  rcases firstLoop_sound sound v fuel none later₂ (Nat.lt_of_lt_of_le later₂.2 enough) with
    ⟨stop, same, fails⟩ | ⟨ok, found, q', same, last⟩
  · rw [same]
    exact .fails fails
  · rw [same]
    simp only
    by_cases close : ok = false ∨ q'.look ≠ .char 41
    · rw [if_pos close]
      exact .stops _ _
    · rw [if_neg close]
      obtain ⟨isOk, isClose⟩ := not_or.mp close
      have done := last (by simpa using isOk)
      exact .sets _ (done.trans (.lex done.1 (by rw [not_not.mp isClose]; decide)))

end

/-- No word that is unset is used where `data` and `tag` suit the node. -/
theorem spExpr_sound (fuel : Nat) (w : Word) (p : SourceParser) (suits : Suits n p)
    (enough : p.measure < fuel) : Sound n p (spExpr atoiN n fuel w p) := by
  induction fuel generalizing w p with
  | zero => exact absurd enough (Nat.not_lt_zero _)
  | succ fuel ih =>
    rw [spExpr]
    cases look : p.look with
    | char c => exact .stops _ _
    | text tok =>
      dsimp only
      have more : p.look ≠ .char 0 := by
        rw [look]
        exact Look.noConfusion
      have sound : ∀ w q, Later n p q → Sound n q (spExpr atoiN n fuel w q) :=
        fun w q later => ih w q later.1 (Nat.lt_of_lt_of_le later.2 (Nat.le_of_lt_succ enough))
      by_cases data : tok = [100, 97, 116, 97]
      · rw [if_pos data]
        obtain ⟨text, rfl⟩ := (suits 0).1 (by rw [Function.iterate_zero, id, look, data])
        exact .sets _ (.lex suits more)
      rw [if_neg data]
      by_cases tag : tok = [116, 97, 103]
      · rw [if_pos tag]
        obtain ⟨tag, attributes, rfl⟩ := (suits 0).2 (by rw [Function.iterate_zero, id, look, tag])
        exact .sets _ (.lex suits more)
      rw [if_neg tag]
      by_cases attr : tok = [97, 116, 116, 114]
      · rw [if_pos attr]
        exact spAttr_sound sound w suits more
      rw [if_neg attr]
      by_cases first : tok = [102, 105, 114, 115, 116]
      · rw [if_pos first]
        exact spFirst_sound sound fuel w suits more (Nat.le_of_lt_succ enough)
      rw [if_neg first]
      by_cases range : tok = [114, 97, 110, 103, 101]
      · rw [if_pos range]
        exact spRange_sound sound w suits more
      · rw [if_neg range]
        exact .sets _ (.lex suits more)

/-- An expression that fits its node is evaluated as it is written, to a word inside of its string;
and with `data` and `tag` at nodes of their kinds alone, no text makes the evaluation use a word
that is unset, it ends, and where all attributes have values no null pointer is followed. -/
theorem spParse_value (reads : ReadsInt atoiN) (n : SourceNode) (w : Word) :
    (∀ e : Expr true, e.Fits n → ∃ w', spParse atoiN n w e.text = .ok ⟨true, w', spLex []⟩ ∧
      Holds w' (e.value n)) ∧
    ∀ src, Suits n (spLex src) →
      spParse atoiN n w src ≠ .error .unset ∧ spParse atoiN n w src ≠ .error .fuel ∧
        (Valued n → spParse atoiN n w src ≠ .error .null) := by
  constructor
  · intro e fits
    have evaluated := Expr.evaluates reads e fits (e.text.length + 2) [] w (.inl rfl) (by omega)
    rw [List.append_nil] at evaluated
    exact evaluated
  · intro src suits
    have less := measure_spLex src
    have sound := @spExpr_sound atoiN n (src.length + 2) w (spLex src) suits (by omega)
    rcases sound.cases with ⟨stop, same, fails⟩ | ⟨w', q, same⟩ | ⟨v, q, -, same⟩
    · rw [spParse, same]
      rcases fails with rfl | ⟨rfl, missing⟩
      · exact ⟨nofun, nofun, fun _ => nofun⟩
      · exact ⟨nofun, nofun, fun valued => absurd valued missing⟩
    · rw [spParse, same]
      exact ⟨nofun, nofun, fun _ => nofun⟩
    · rw [spParse, same]
      exact ⟨nofun, nofun, fun _ => nofun⟩

/-- The number that digits stand for, with room for all -/
def digitsValue (s : List Byte) : Int := (Decimal.value s : Nat)

theorem readsInt_digitsValue : ReadsInt digitsValue := fun _ _ => rfl

/-- A tag `ab` with the attribute `id="y"` -/
def tagNode : SourceNode := .tag [97, 98] [⟨[105, 100], some [121]⟩]

theorem spParse_value_tag :
    (∀ e : Expr true, e.Fits tagNode →
      ∃ w', spParse digitsValue tagNode .null e.text = .ok ⟨true, w', spLex []⟩ ∧
        Holds w' (e.value tagNode)) ∧
    ∀ src, Suits tagNode (spLex src) →
      spParse digitsValue tagNode .null src ≠ .error .unset ∧
        spParse digitsValue tagNode .null src ≠ .error .fuel ∧
        (Valued tagNode → spParse digitsValue tagNode .null src ≠ .error .null) :=
  spParse_value readsInt_digitsValue tagNode .null

/-- Of the attributes `ab` and `id`, the first is taken for `attr('id')`, as its name is as long. -/
theorem not_spParse_value :
    ¬ ∀ (atoiN : List Byte → Int), ReadsInt atoiN → ∀ (n : SourceNode) (w : Word) (e : Expr true),
      e.WellFormed → ∃ r, spParse atoiN n w e.text = .ok r ∧ Holds r.word (e.value n) := by
  intro all
  obtain ⟨r, parsed, holds⟩ := all digitsValue readsInt_digitsValue
    (.tag [116] [⟨[97, 98], some [120]⟩, ⟨[105, 100], some [121]⟩]) .null
      (.attr (.quoted [105, 100])) (by
      show 0 ∉ [105, 100] ∧ 39 ∉ [105, 100]
      decide)
  have taken : spParse digitsValue (.tag [116] [⟨[97, 98], some [120]⟩,
      ⟨[105, 100], some [121]⟩]) .null
      (Expr.attr (.quoted [105, 100])).text = .ok ⟨true, .view (.all [120]), ⟨.char 0, []⟩⟩ := rfl
  rw [taken] at parsed
  cases parsed
  obtain ⟨v, same, -, bytes⟩ := holds
  cases same
  have value : (Expr.attr (.quoted [105, 100])).value
      (.tag [116] [⟨[97, 98], some [120]⟩, ⟨[105, 100], some [121]⟩]) = [121] := by decide
  rw [value] at bytes
  have own : (View.all [120]).bytes = .ok [120] := rfl
  rw [own] at bytes
  cases bytes

end Zebra.Source
