import Zebra.Lib.SelfDelimiting
import Zebra.Index.Source

/-!
# The values of source expressions

What a source expression stands for at a node, and where its evaluation comes to that.
-/

namespace Zebra.Source

open List

/-- Source expressions (`true`), and the searches of `first` (`false`) -/
inductive Expr : Bool → Type where
  | data : Expr true
  | tag : Expr true
  | attr (name : Expr true) : Expr true
  | number (digits : List Byte) : Expr true
  | quoted (s : List Byte) : Expr true
  | range (e start : Expr true) : Expr true
  | rangeLen (e start len : Expr true) : Expr true
  | first (e : Expr true) (searches : Expr false) : Expr true
  | none : Expr false
  | more (e : Expr true) (searches : Expr false) : Expr false

def Expr.text : {b : Bool} → Expr b → List Byte
  | _, .data => [100, 97, 116, 97]
  | _, .tag => [116, 97, 103]
  | _, .attr name => [97, 116, 116, 114] ++ 40 :: (name.text ++ [41])
  | _, .number digits => digits
  | _, .quoted s => 39 :: (s ++ [39])
  | _, .range e start => [114, 97, 110, 103, 101] ++ 40 :: (e.text ++ 44 :: (start.text ++ [41]))
  | _, .rangeLen e start len =>
    [114, 97, 110, 103, 101] ++ 40 :: (e.text ++ 44 :: (start.text ++ 44 :: (len.text ++ [41])))
  | _, .first e searches => [102, 105, 114, 115, 116] ++ 40 :: (e.text ++ (searches.text ++ [41]))
  | _, .none => []
  | _, .more e searches => 44 :: (e.text ++ searches.text)

/-- The value of the attribute with exactly this name, empty where there is none -/
def attributeOf (name : List Byte) : SourceNode → List Byte
  | .tag _ attributes => ((attributes.find? fun p => p.name = name).bind Attr.value).getD []
  | _ => []

def FoundAt (s : List Byte) (searches : List (List Byte)) (i : Nat) : Prop :=
  i < s.length ∧ ∃ search ∈ searches, search <+: s.drop i

instance (s : List Byte) (searches : List (List Byte)) (i : Nat) :
    Decidable (FoundAt s searches i) :=
  inferInstanceAs (Decidable (i < s.length ∧ ∃ search ∈ searches, search <+: s.drop i))

/-- The smallest place at which one of the strings stands, and 0 without one -/
def smallestPos (s : List Byte) (searches : List (List Byte)) : Nat :=
  ((List.range s.length).find? fun i => FoundAt s searches i).getD 0

def Expr.WellFormed : {b : Bool} → Expr b → Prop
  | _, .data => True
  | _, .tag => True
  | _, .attr name => name.WellFormed
  | _, .number digits => digits ≠ [] ∧ Decimal.Digits digits
  | _, .quoted s => 0 ∉ s ∧ 39 ∉ s
  | _, .range e start => e.WellFormed ∧ start.WellFormed
  | _, .rangeLen e start len => e.WellFormed ∧ start.WellFormed ∧ len.WellFormed
  | _, .first e searches => e.WellFormed ∧ searches.WellFormed
  | _, .none => True
  | _, .more e searches => e.WellFormed ∧ searches.WellFormed

/-- What an expression stands for at a node, or what the searches stand for -/
def Expr.values (n : SourceNode) : {b : Bool} → Expr b → List (List Byte)
  | _, .data => match n with | .data text => [text] | _ => []
  | _, .tag => match n with | .tag own _ => [own] | _ => []
  | _, .attr name => [attributeOf ((name.values n).headD []) n]
  | _, .number digits => [digits]
  | _, .quoted s => [s]
  | _, .range e start =>
    [((e.values n).headD []).drop (Decimal.value ((start.values n).headD []))]
  | _, .rangeLen e start len =>
    [(((e.values n).headD []).drop (Decimal.value ((start.values n).headD []))).take
      (Decimal.value ((len.values n).headD []))]
  | _, .first e searches =>
    [Decimal.decimal (smallestPos ((e.values n).headD []) (searches.values n))]
  | _, .none => []
  | _, .more e searches => (e.values n).headD [] :: searches.values n

def Expr.value (n : SourceNode) (e : Expr true) : List Byte := (e.values n).headD []

/-- A number that `int` has room for -/
def Small (s : List Byte) : Prop := Decimal.Digits s ∧ Decimal.value s < 2 ^ 31

/-- The attribute with this name has a value; and each one in front of it has another length, and
differs from the name within its own length or that of the name. -/
def Tells (name : List Byte) : List Attr → Prop
  | [] => True
  | p :: rest => (p.name = name ∧ p.value.isSome = true) ∨
      (p.name.length ≠ name.length ∧ ¬ name <+: p.name ++ [0] ∧ ¬ p.name ++ [0] <+: name ∧
        Tells name rest)

/-- Where the code evaluates an expression as it is written -/
def Expr.Fits (n : SourceNode) : {b : Bool} → Expr b → Prop
  | _, .data => ∃ text, n = .data text
  | _, .tag => ∃ tag attributes, n = .tag tag attributes
  | _, .attr name => name.Fits n ∧ ∀ tag attributes, n = .tag tag attributes →
      Tells (name.value n) attributes
  | _, .number digits => digits ≠ [] ∧ Decimal.Digits digits
  | _, .quoted s => ∀ c ∈ s, tokChar c = true
  | _, .range e start => e.Fits n ∧ start.Fits n ∧ Small (start.value n)
  | _, .rangeLen e start len => e.Fits n ∧ (start.Fits n ∧ Small (start.value n)) ∧
      len.Fits n ∧ Small (len.value n)
  | _, .first e searches => e.Fits n ∧ searches.Fits n
  | _, .none => True
  | _, .more e searches => e.Fits n ∧ searches.Fits n

/-- A word that lies inside of the string it was taken from -/
def View.Inside (v : View) : Prop := 0 ≤ v.off ∧ 0 ≤ v.len ∧ v.off + v.len ≤ v.str.length

def Holds (w : Word) (s : List Byte) : Prop := ∃ v, w = .view v ∧ v.Inside ∧ v.bytes = .ok s

def Stops (rest : List Byte) : Prop := rest = [] ∨ ∃ c s, rest = c :: s ∧ (c = 41 ∨ c = 44)

theorem spLex_token {tok rest : List Byte} (some : tok ≠ []) (inside : ∀ c ∈ tok, tokChar c = true)
    (stop : rest = [] ∨ ∃ c s, rest = c :: s ∧ tokChar c = false) :
    spLex (tok ++ rest) = ⟨.text tok, rest⟩ := by
  have split : (tok ++ rest).takeWhile tokChar = tok ∧ (tok ++ rest).dropWhile tokChar = rest := by
    rcases stop with rfl | ⟨c, s, rfl, other⟩
    · rw [takeWhile_append_of_pos inside, dropWhile_append_of_pos inside]
      exact ⟨append_nil tok, rfl⟩
    · exact takeWhile_append_stop inside other
  have noBlank : (tok ++ rest).dropWhile (· == 32) = tok ++ rest := by
    cases tok with
    | nil => exact absurd rfl some
    | cons c tok =>
      refine dropWhile_cons_of_neg fun blank => ?_
      rw [beq_iff_eq] at blank
      have first := inside c mem_cons_self
      rw [blank] at first
      exact Bool.false_ne_true first
  rw [spLex, noBlank, split.1, if_pos some, split.2]

theorem spLex_char {c : Byte} (mem : c = 40 ∨ c = 41 ∨ c = 44) (rest : List Byte) :
    spLex (c :: rest) = ⟨.char c, rest⟩ := by
  rcases mem with rfl | rfl | rfl
  · rfl
  · rfl
  · rfl

theorem Stops.token {rest : List Byte} (stops : Stops rest) :
    rest = [] ∨ ∃ c s, rest = c :: s ∧ tokChar c = false := by
  rcases stops with rfl | ⟨c, s, rfl, rfl | rfl⟩
  · exact .inl rfl
  · exact .inr ⟨41, s, rfl, rfl⟩
  · exact .inr ⟨44, s, rfl, rfl⟩

theorem holds_all (s : List Byte) : Holds (.view (.all s)) s := by
  refine ⟨.all s, rfl, ⟨le_rfl, Int.natCast_nonneg _, by simp [View.all]⟩, ?_⟩
  by_cases empty : s = []
  · rw [empty]
    rfl
  · have pos := length_pos_iff.mpr empty
    have some : ¬ (s.length : Int) ≤ 0 := by omega
    have within : (0 : Int) ≤ 0 ∧ (0 : Int) + s.length ≤ s.length := ⟨le_rfl, by omega⟩
    rw [View.bytes, if_neg (show ¬ (View.all s).len ≤ 0 from some),
      if_pos (show 0 ≤ (View.all s).off ∧
        (View.all s).off + (View.all s).len ≤ (View.all s).str.length
        from within)]
    simp [View.all]

theorem Holds.bytes {w : Word} {s : List Byte} (holds : Holds w s) : w.bytes = .ok s := by
  obtain ⟨v, rfl, -, same⟩ := holds
  exact same

theorem View.Inside.bytes_eq {v : View} (inside : v.Inside) :
    v.bytes = .ok ((v.str.drop v.off.toNat).take v.len.toNat) := by
  obtain ⟨off, len, within⟩ := inside
  rw [View.bytes]
  by_cases empty : v.len ≤ 0
  · have zero : v.len = 0 := le_antisymm empty len
    rw [if_pos empty, zero]
    simp
  · rw [if_neg empty, if_pos ⟨off, within⟩]

theorem Holds.clip {w : Word} {s : List Byte} (holds : Holds w s) (start : Nat) {len : Option Int}
    {l : Nat} (own : len = some (l : Int) ∨ (len = none ∧ l = s.length)) :
    ∃ w', clip start len w = .ok w' ∧ Holds w' ((s.drop start).take l) := by
  obtain ⟨v, rfl, inside, same⟩ := holds
  have bytes := inside.bytes_eq
  obtain ⟨off, length, within⟩ := inside
  obtain rfl : s = (v.str.drop v.off.toNat).take v.len.toNat :=
    Except.ok.inj (same.symm.trans bytes)
  have total : ((v.str.drop v.off.toNat).take v.len.toNat).length = v.len.toNat := by
    rw [length_take, length_drop]
    omega
  have most : len.getD v.len = l := by
    rcases own with rfl | ⟨rfl, rfl⟩
    · rfl
    · rw [total, Option.getD_none]
      omega
  rw [Source.clip]
  by_cases behind : v.len ≤ start
  · have empty : View.Inside { v with len := 0 } :=
      ⟨off, le_rfl, show v.off + 0 ≤ (v.str.length : Int) by omega⟩
    rw [if_pos behind]
    refine ⟨_, rfl, _, rfl, empty, empty.bytes_eq.trans (congrArg _ ?_)⟩
    rw [drop_eq_nil_of_le (show (List.take v.len.toNat (List.drop v.off.toNat v.str)).length ≤ start
      by omega), take_nil]
    rfl
  · rw [if_neg behind]
    dsimp only
    rw [most]
    have inside : View.Inside ⟨v.str, v.off + start,
        if (l : Int) < v.len - start then (l : Int) else v.len - start⟩ := by
      refine ⟨show 0 ≤ v.off + (start : Int) by omega, ?_, ?_⟩
      · dsimp only
        split_ifs <;> omega
      · dsimp only
        split_ifs <;> omega
    refine ⟨_, rfl, _, rfl, inside, inside.bytes_eq.trans (congrArg _ ?_)⟩
    dsimp only
    have place : (v.off + start).toNat = v.off.toNat + start := by omega
    rw [drop_take, take_take, drop_drop, place]
    congr 1
    split_ifs <;> omega

theorem findAttr_tells {w : Word} {name : List Byte} (bytes : w.bytes = .ok name)
    (attributes : List Attr) (tells : Tells name attributes) :
    (findAttr attributes w).bind valueOf =
      .ok (((attributes.find? fun p => p.name = name).bind Attr.value).getD []) := by
  induction attributes with
  | nil => rfl
  | cons p rest ih =>
    rw [findAttr, bytes]
    simp only [Except.bind]
    by_cases same : p.name = name
    · rw [if_pos (congrArg List.length same), find?_cons_of_pos (by simpa using same)]
      rcases tells with ⟨-, valued⟩ | ⟨length, -⟩
      · obtain ⟨value, own⟩ := Option.isSome_iff_exists.mp valued
        obtain ⟨name', _⟩ := p
        cases own
        rfl
      · exact absurd (congrArg List.length same) length
    · obtain ⟨length, noFront, noWhole, tells⟩ := tells.resolve_left fun both => same both.1
      rw [if_neg length, memcmpSame, if_neg (by simpa using noFront),
        if_neg (by simpa using noWhole), find?_cons_of_neg (by simpa using same)]
      exact ih tells

theorem attrValue_tells {n : SourceNode} {w : Word} {name : List Byte} (bytes : w.bytes = .ok name)
    (tells : ∀ tag attributes, n = .tag tag attributes → Tells name attributes) :
    attrValue n w = .ok (attributeOf name n) := by
  cases n with
  | data text => rfl
  | other => rfl
  | tag tag attributes =>
    exact findAttr_tells bytes attributes (tells tag attributes rfl)

/-- The smallest number with a property, if there is one -/
def Least (p : Nat → Prop) (found : Option Nat) : Prop :=
  match found with
  | none => ∀ i, ¬ p i
  | some i => p i ∧ ∀ j, p j → i ≤ j

theorem firstMatch_least (search : List Byte) (i : Nat) (s : List Byte) :
    Least (fun j => i ≤ j ∧ j - i < s.length ∧
      search <+: s.drop (j - i)) (firstMatch search i s) := by
  induction s generalizing i with
  | nil => exact fun j found => absurd found.2.1 (Nat.not_lt_zero _)
  | cons c s ih =>
    rw [firstMatch]
    by_cases here : search.isPrefixOf (c :: s) = true
    · rw [if_pos here]
      refine ⟨⟨le_rfl, ?_, ?_⟩, fun j found => found.1⟩
      · rw [Nat.sub_self]
        exact Nat.succ_pos _
      · rw [Nat.sub_self]
        exact isPrefixOf_iff_prefix.mp here
    · rw [if_neg here]
      have step (j : Nat) : (i ≤ j ∧ j - i < (c :: s).length ∧ search <+: (c :: s).drop (j - i)) ↔
          (i + 1 ≤ j ∧ j - (i + 1) < s.length ∧ search <+: s.drop (j - (i + 1))) := by
        by_cases first : j = i
        · rw [first, Nat.sub_self]
          exact iff_of_false (fun found => here (List.isPrefixOf_iff_prefix.mpr found.2.2))
            fun found => by omega
        · by_cases later : i ≤ j
          · obtain ⟨d, rfl⟩ : ∃ d, j = i + 1 + d := ⟨j - (i + 1), by omega⟩
            have place : i + 1 + d - i = d + 1 := by omega
            rw [place, Nat.add_sub_cancel_left, drop_succ_cons, length_cons]
            constructor
            · exact fun found => ⟨by omega, by omega, found.2.2⟩
            · exact fun found => ⟨by omega, by omega, found.2.2⟩
          · exact iff_of_false (fun found => later found.1) fun found => by omega
      have own := ih (i + 1)
      simp only [step]
      exact own

theorem searchWord_least {s t : List Byte} {search : Word} (bytes : search.bytes = .ok t)
    {p : Nat → Prop} {minPos : Option Nat} (least : Least p minPos) :
    ∃ found, searchWord s search minPos = .ok found ∧
      Least (fun i => p i ∨ (i < s.length ∧ t <+: s.drop i)) found := by
  rw [searchWord]
  by_cases empty : s = []
  · rw [if_pos empty]
    refine ⟨minPos, rfl, ?_⟩
    have same (i : Nat) : (p i ∨ (i < s.length ∧ t <+: s.drop i)) ↔ p i :=
      or_iff_left fun found => by rw [empty] at found; exact Nat.not_lt_zero _ found.1
    simp only [same]
    exact least
  · rw [if_neg empty, bytes]
    simp only [Except.bind]
    have own := firstMatch_least t 0 s
    simp only [Nat.zero_le, true_and, Nat.sub_zero] at own
    cases found : firstMatch t 0 s with
    | none =>
      rw [found] at own
      refine ⟨minPos, rfl, ?_⟩
      have same (i : Nat) : (p i ∨ (i < s.length ∧ t <+: s.drop i)) ↔ p i := or_iff_left (own i)
      simp only [same]
      exact least
    | some i =>
      rw [found] at own
      refine ⟨_, rfl, ?_⟩
      cases minPos with
      | none =>
        refine ⟨.inr own.1, fun j either => ?_⟩
        exact own.2 j (either.resolve_left (least j))
      | some k =>
        refine ⟨?_, fun j either => ?_⟩
        · rw [Option.elim_some]
          rcases Nat.le_total k i with low | low
          · exact .inl (by rw [Nat.min_eq_left low]; exact least.1)
          · exact .inr (by rw [Nat.min_eq_right low]; exact own.1)
        · rcases either with old | new
          · exact (Nat.min_le_left k i).trans (least.2 j old)
          · exact (Nat.min_le_right k i).trans (own.2 j new)

theorem Least.smallestPos {s : List Byte} {searches : List (List Byte)} {found : Option Nat}
    (least : Least (FoundAt s searches) found) : found.getD 0 = smallestPos s searches := by
  rw [Source.smallestPos]
  cases found with
  | none =>
    rw [find?_eq_none.mpr fun i _ => by simpa using least i]
  | some i =>
    have same : (List.range s.length).find? (fun i => decide (FoundAt s searches i)) = some i := by
      rw [find?_range_eq_some]
      refine ⟨by simpa using least.1, mem_range.mpr least.1.1, fun j less => ?_⟩
      simpa using fun found => absurd (least.2 j found) (Nat.not_le_of_lt less)
    rw [same]

/-- `atoi_n` reads digits whose number `int` has room for. -/
def ReadsInt (atoiN : List Byte → Int) : Prop :=
  ∀ s, Small s → atoiN s = (Decimal.value s : Nat)

/-- What the evaluator does with an expression, or with the searches of `first` -/
def Expr.Evaluates (atoiN : List Byte → Int) (n : SourceNode) : {b : Bool} → Expr b → Prop
  | true, e => ∀ (fuel : Nat) (rest : List Byte) (w : Word), Stops rest → e.text.length < fuel →
      ∃ w', spExpr atoiN n fuel w (spLex (e.text ++ rest)) = .ok ⟨true, w', spLex rest⟩ ∧
        Holds w' (e.value n)
  | false, searches => ∀ (fuel rounds : Nat) (rest s : List Byte) (w : Word) (p : Nat → Prop)
      (minPos : Option Nat), w.bytes = .ok s → searches.text.length < fuel →
      searches.text.length < rounds → Least p minPos →
      ∃ found, firstLoop (spExpr atoiN n fuel) w rounds minPos
        (spLex (searches.text ++ 41 :: rest)) =
          .ok (true, found, ⟨.char 41, rest⟩) ∧
        Least (fun i => p i ∨ FoundAt s (searches.values n) i) found

theorem literal_number {digits : List Byte} (some : digits ≠ []) (all : Decimal.Digits digits) :
    literal digits = .all digits := by
  cases digits with
  | nil => exact absurd rfl some
  | cons c digits =>
    obtain ⟨low, high⟩ := all c mem_cons_self
    rw [literal, if_pos]
    simpa using ⟨low, high⟩

theorem literal_quoted (s : List Byte) : literal (39 :: (s ++ [39])) = .all s := by
  rw [literal, if_neg (by simp)]
  cases s with
  | nil => rfl
  | cons c s =>
    rw [if_pos ⟨by simp, rfl, by rw [← cons_append]; exact getLast?_concat⟩]
    simp

variable {atoiN : List Byte → Int} {n : SourceNode}

/-- A number or a string in quotes is none of the names of the expressions. -/
theorem spExpr_literal {c : Byte} {tok rest : List Byte} (noName : c < 97) (fuel : Nat) (w : Word)
    (lexed : spLex (c :: (tok ++ rest)) = ⟨.text (c :: tok), rest⟩) :
    spExpr atoiN n (fuel + 1) w (spLex (c :: (tok ++ rest))) =
      .ok ⟨true, .view (literal (c :: tok)), spLex rest⟩ := by
  have other {d : Byte} {name : List Byte} (letter : 97 ≤ d) : ¬ c :: tok = d :: name := by
    intro same
    obtain ⟨rfl, -⟩ := List.cons.inj same
    exact absurd noName (Nat.not_lt_of_le letter)
  rw [lexed, spExpr]
  dsimp only
  rw [if_neg (other (by decide)), if_neg (other (by decide)), if_neg (other (by decide)),
    if_neg (other (by decide)), if_neg (other (by decide))]
  rfl

theorem spLex_open {name : List Byte}
    (mem : name ∈ ([[97, 116, 116, 114], [102, 105, 114, 115, 116],
    [114, 97, 110, 103, 101]] : List (List Byte))) (rest : List Byte) :
    spLex (name ++ 40 :: rest) = ⟨.text name, 40 :: rest⟩ := by
  refine spLex_token ?_ ?_ (.inr ⟨40, rest, rfl, rfl⟩)
  · revert name
    decide
  · revert name
    decide

theorem stops_close (rest : List Byte) : Stops (41 :: rest) := .inr ⟨41, rest, rfl, .inl rfl⟩

theorem stops_comma (rest : List Byte) : Stops (44 :: rest) := .inr ⟨44, rest, rfl, .inr rfl⟩

theorem lex_char {look : Look} {c : Byte} (mem : c = 40 ∨ c = 41 ∨ c = 44) (s : List Byte) :
    (SourceParser.mk look (c :: s)).lex = ⟨.char c, s⟩ :=
  spLex_char mem s

section

variable {expr : Word → SourceParser → Except EvalStop Res} {w w₀ w₁ w₂ : Word}
  {look : Look} {s rest : List Byte}

/-- A complete `attr` gives the value of the attribute that is found. -/
theorem spAttr_ok {value : List Byte}
    (name : expr .unset (spLex s) = .ok ⟨true, w, spLex (41 :: rest)⟩)
    (found : attrValue n w = .ok value) :
    spAttr expr n w₀ ⟨look, 40 :: s⟩ = .ok ⟨true, .view (.all value), spLex rest⟩ := by
  rw [spAttr, lex_char (.inl rfl), if_neg (not_not.mpr rfl), SourceParser.lex, name]
  simp only [Except.bind]
  rw [if_neg Bool.noConfusion, found, spLex_char (.inr (.inl rfl))]
  simp only
  rw [if_neg (not_not.mpr rfl), SourceParser.lex]

theorem rangeEnd_ok {start : Int} {len : Option Int} (clipped : clip start len w = .ok w₀) :
    rangeEnd w start len (spLex (41 :: rest)) = .ok ⟨true, w₀, spLex rest⟩ := by
  rw [spLex_char (.inr (.inl rfl)), rangeEnd, if_neg (not_not.mpr rfl), clipped]
  rfl

variable {start t : List Byte} {q : SourceParser}

/-- A `range` up to its second argument -/
theorem spRange_start (subject : expr w₀ (spLex s) = .ok ⟨true, w, spLex (44 :: t)⟩)
    (first : expr .unset (spLex t) = .ok ⟨true, w₁, q⟩) (bytes : w₁.bytes = .ok start) :
    spRange atoiN expr w₀ ⟨look, 40 :: s⟩ =
      if q.look ≠ .char 44 then rangeEnd w (atoiN start) none q
      else (expr w₁ q.lex).bind fun second =>
        if second.ok = false then .ok ⟨false, w, second.parser⟩
        else second.word.bytes.bind fun len =>
          rangeEnd w (atoiN start) (some (atoiN len)) second.parser := by
  rw [spRange, lex_char (.inl rfl), if_neg (not_not.mpr rfl), SourceParser.lex, subject]
  simp only [Except.bind]
  rw [spLex_char (.inr (.inr rfl)), if_neg (by simp), SourceParser.lex, first]
  simp only
  rw [if_neg Bool.noConfusion, bytes]

/-- A complete `range` without a length -/
theorem spRange_ok (subject : expr w₀ (spLex s) = .ok ⟨true, w, spLex (44 :: t)⟩)
    (first : expr .unset (spLex t) = .ok ⟨true, w₁, spLex (41 :: rest)⟩)
    (bytes : w₁.bytes = .ok start) (clipped : clip (atoiN start) none w = .ok w₂) :
    spRange atoiN expr w₀ ⟨look, 40 :: s⟩ = .ok ⟨true, w₂, spLex rest⟩ := by
  rw [spRange_start subject first bytes, if_pos (by rw [spLex_char (.inr (.inl rfl))]; simp)]
  exact rangeEnd_ok clipped

/-- A complete `range` with a length -/
theorem spRange_len {len : List Byte} {u : List Byte} {w' : Word}
    (subject : expr w₀ (spLex s) = .ok ⟨true, w, spLex (44 :: t)⟩)
    (first : expr .unset (spLex t) = .ok ⟨true, w₁, spLex (44 :: u)⟩) (bytes : w₁.bytes = .ok start)
    (second : expr w₁ (spLex u) = .ok ⟨true, w₂, spLex (41 :: rest)⟩) (bytes' : w₂.bytes = .ok len)
    (clipped : clip (atoiN start) (some (atoiN len)) w = .ok w') :
    spRange atoiN expr w₀ ⟨look, 40 :: s⟩ = .ok ⟨true, w', spLex rest⟩ := by
  rw [spRange_start subject first bytes, spLex_char (.inr (.inr rfl)), if_neg (not_not.mpr rfl),
    SourceParser.lex, second]
  simp only [Except.bind]
  rw [if_neg Bool.noConfusion, bytes']
  exact rangeEnd_ok clipped

/-- A complete `first` gives the number that its loop comes to. -/
theorem spFirst_ok {fuel : Nat} {found : Option Nat}
    (subject : expr w₀ (spLex s) = .ok ⟨true, w, q⟩)
    (loop : firstLoop expr w fuel none q = .ok (true, found, ⟨.char 41, rest⟩)) :
    spFirst expr fuel w₀ ⟨look, 40 :: s⟩ =
      .ok ⟨true, .view (.all (Decimal.decimal (found.getD 0))), spLex rest⟩ := by
  rw [spFirst, lex_char (.inl rfl), if_neg (not_not.mpr rfl), SourceParser.lex, subject]
  simp only [Except.bind]
  rw [if_neg Bool.noConfusion, loop]
  simp only
  rw [if_neg (by simp), SourceParser.lex]

theorem firstLoop_next {fuel : Nat} {minPos found : Option Nat} {bytes : List Byte}
    (search : expr .unset (spLex s) = .ok ⟨true, w₁, q⟩)
    (own : w.bytes = .ok bytes) (searched : searchWord bytes w₁ minPos = .ok found) :
    firstLoop expr w (fuel + 1) minPos ⟨.char 44, s⟩ = firstLoop expr w fuel found q := by
  rw [firstLoop, if_neg (not_not.mpr rfl), SourceParser.lex, search]
  simp only [Except.bind]
  rw [if_neg Bool.noConfusion, own]
  simp only
  rw [searched]

end

theorem Expr.evaluates (reads : ReadsInt atoiN) {b : Bool} (e : Expr b) (fits : e.Fits n) :
    e.Evaluates atoiN n := by
  induction e with
  | data =>
    intro fuel rest w stops enough
    obtain ⟨text, rfl⟩ := fits
    obtain ⟨fuel, rfl⟩ := Nat.exists_eq_succ_of_ne_zero (Nat.ne_zero_of_lt enough)
    refine ⟨.view (.all text), ?_, holds_all text⟩
    rw [Expr.text, spLex_token (by decide) (by decide) stops.token]
    rfl
  | tag =>
    intro fuel rest w stops enough
    obtain ⟨tag, attributes, rfl⟩ := fits
    obtain ⟨fuel, rfl⟩ := Nat.exists_eq_succ_of_ne_zero (Nat.ne_zero_of_lt enough)
    refine ⟨.view (.all tag), ?_, holds_all tag⟩
    rw [Expr.text, spLex_token (by decide) (by decide) stops.token]
    rfl
  | attr name ih =>
    intro fuel rest w stops enough
    obtain ⟨fits, tells⟩ := fits
    obtain ⟨fuel, rfl⟩ := Nat.exists_eq_succ_of_ne_zero (Nat.ne_zero_of_lt enough)
    simp only [Expr.text, length_append, length_cons, length_nil] at enough
    obtain ⟨w', evaluated, holds⟩ := ih fits fuel (41 :: rest) .unset (stops_close rest) (by omega)
    have shape : (Expr.attr name).text ++ rest =
        [97, 116, 116, 114] ++ 40 :: (name.text ++ 41 :: rest) := by simp [Expr.text]
    refine ⟨.view (.all (attributeOf (name.value n) n)), ?_, holds_all _⟩
    rw [shape, @spLex_open [97, 116, 116, 114] (by decide), spExpr]
    dsimp only
    rw [if_neg (by decide), if_neg (by decide), if_pos rfl]
    exact spAttr_ok evaluated (attrValue_tells holds.bytes tells)
  | number digits =>
    intro fuel rest w stops enough
    obtain ⟨some, all⟩ := fits
    obtain ⟨fuel, rfl⟩ := Nat.exists_eq_succ_of_ne_zero (Nat.ne_zero_of_lt enough)
    have digit : ∀ c < 58, 48 ≤ c → tokChar c = true := by decide
    have inside : ∀ c ∈ digits, tokChar c = true := fun c mem =>
      digit c (Nat.lt_succ_of_le (all c mem).2) (all c mem).1
    have lexed := spLex_token some inside stops.token
    refine ⟨.view (.all digits), ?_, holds_all digits⟩
    cases digits with
    | nil => exact absurd rfl some
    | cons c digits =>
      have first := all c mem_cons_self
      rw [← literal_number some all]
      exact spExpr_literal (Nat.lt_of_le_of_lt first.2 (by decide)) fuel w lexed
  | quoted s =>
    intro fuel rest w stops enough
    obtain ⟨fuel, rfl⟩ := Nat.exists_eq_succ_of_ne_zero (Nat.ne_zero_of_lt enough)
    have inside : ∀ c ∈ 39 :: (s ++ [39]), tokChar c = true := by
      intro c mem
      rcases mem_cons.mp mem with rfl | mem
      · rfl
      · rcases mem_append.mp mem with mem | mem
        · exact fits c mem
        · rw [mem_singleton.mp mem]
          rfl
    refine ⟨.view (.all s), ?_, holds_all s⟩
    rw [← literal_quoted s]
    exact spExpr_literal (by decide) fuel w
      (spLex_token (cons_ne_nil _ _) inside stops.token)
  | range e start ihE ihStart =>
    intro fuel rest w stops enough
    obtain ⟨fitsE, fitsStart, small⟩ := fits
    obtain ⟨fuel, rfl⟩ := Nat.exists_eq_succ_of_ne_zero (Nat.ne_zero_of_lt enough)
    simp only [Expr.text, length_append, length_cons, length_nil] at enough
    obtain ⟨word, evaluated, holds⟩ := ihE fitsE fuel (44 :: (start.text ++ 41 :: rest)) w
      (stops_comma _) (by omega)
    obtain ⟨first, evaluated₁, holds₁⟩ := ihStart fitsStart fuel (41 :: rest) .unset
      (stops_close rest) (by omega)
    obtain ⟨w', clipped, holds'⟩ := holds.clip (Decimal.value (start.value n)) (.inr ⟨rfl, rfl⟩)
    have shape : (Expr.range e start).text ++ rest =
        [114, 97, 110, 103, 101] ++ 40 :: (e.text ++ 44 :: (start.text ++ 41 :: rest)) := by
      simp [Expr.text]
    refine ⟨w', ?_, ?_⟩
    · rw [shape, @spLex_open [114, 97, 110, 103, 101] (by decide), spExpr]
      dsimp only
      rw [if_neg (by decide), if_neg (by decide), if_neg (by decide), if_neg (by decide),
        if_pos rfl]
      exact spRange_ok evaluated evaluated₁ holds₁.bytes (by rw [reads _ small]; exact clipped)
    · rw [take_of_length_le (by rw [length_drop]; exact Nat.sub_le _ _)] at holds'
      exact holds'
  | rangeLen e start len ihE ihStart ihLen =>
    intro fuel rest w stops enough
    obtain ⟨fitsE, ⟨fitsStart, small⟩, fitsLen, smallLen⟩ := fits
    obtain ⟨fuel, rfl⟩ := Nat.exists_eq_succ_of_ne_zero (Nat.ne_zero_of_lt enough)
    simp only [Expr.text, length_append, length_cons, length_nil] at enough
    obtain ⟨word, evaluated, holds⟩ := ihE fitsE fuel
      (44 :: (start.text ++ 44 :: (len.text ++ 41 :: rest))) w (stops_comma _) (by omega)
    obtain ⟨first, evaluated₁, holds₁⟩ := ihStart fitsStart fuel (44 :: (len.text ++ 41 :: rest))
      .unset (stops_comma _) (by omega)
    obtain ⟨second, evaluated₂, holds₂⟩ := ihLen fitsLen fuel (41 :: rest) first (stops_close rest)
      (by omega)
    obtain ⟨w', clipped, holds'⟩ := holds.clip (Decimal.value (start.value n))
      (l := Decimal.value (len.value n)) (.inl rfl)
    have shape : (Expr.rangeLen e start len).text ++ rest =
        [114, 97, 110, 103, 101] ++ 40 :: (e.text ++ 44 :: (start.text ++ 44 :: (len.text ++
          41 :: rest))) := by
      simp [Expr.text]
    refine ⟨w', ?_, holds'⟩
    rw [shape, @spLex_open [114, 97, 110, 103, 101] (by decide), spExpr]
    dsimp only
    rw [if_neg (by decide), if_neg (by decide), if_neg (by decide), if_neg (by decide), if_pos rfl]
    exact spRange_len evaluated evaluated₁ holds₁.bytes evaluated₂ holds₂.bytes
      (by rw [reads _ small, reads _ smallLen]; exact clipped)
  | first e searches ihE ihSearches =>
    intro fuel rest w stops enough
    obtain ⟨fitsE, fitsSearches⟩ := fits
    obtain ⟨fuel, rfl⟩ := Nat.exists_eq_succ_of_ne_zero (Nat.ne_zero_of_lt enough)
    simp only [Expr.text, length_append, length_cons, length_nil] at enough
    have next : Stops (searches.text ++ 41 :: rest) := by
      cases searches with
      | none => exact stops_close rest
      | more e' more => exact stops_comma _
    obtain ⟨word, evaluated, holds⟩ :=
      ihE fitsE fuel (searches.text ++ 41 :: rest) w next (by omega)
    obtain ⟨found, loop, least⟩ := ihSearches fitsSearches fuel fuel rest (e.value n) word
      (fun _ => False) Option.none holds.bytes (by omega) (by omega) fun _ => id
    simp only [false_or] at least
    have shape : (Expr.first e searches).text ++ rest =
        [102, 105, 114, 115, 116] ++ 40 :: (e.text ++ (searches.text ++ 41 :: rest)) := by
      simp [Expr.text]
    refine ⟨.view (.all (Decimal.decimal (found.getD 0))), ?_, ?_⟩
    · rw [shape, @spLex_open [102, 105, 114, 115, 116] (by decide), spExpr]
      dsimp only
      rw [if_neg (by decide), if_neg (by decide), if_neg (by decide), if_pos rfl]
      exact spFirst_ok evaluated loop
    · rw [least.smallestPos]
      exact holds_all _
  | none =>
    intro fuel rounds rest s w p minPos bytes enough enough' least
    obtain ⟨rounds, rfl⟩ := Nat.exists_eq_succ_of_ne_zero (Nat.ne_zero_of_lt enough')
    refine ⟨minPos, ?_, ?_⟩
    · rw [Expr.text, nil_append, spLex_char (.inr (.inl rfl)), firstLoop, if_pos (by simp)]
    · have same (i : Nat) : (p i ∨ FoundAt s (Expr.none.values n) i) ↔ p i :=
        or_iff_left fun found => by
          obtain ⟨-, search, mem, -⟩ := found
          cases mem
      simp only [same]
      exact least
  | more e searches ihE ihSearches =>
    intro fuel rounds rest s w p minPos bytes enough enough' least
    obtain ⟨fitsE, fitsSearches⟩ := fits
    obtain ⟨rounds, rfl⟩ := Nat.exists_eq_succ_of_ne_zero (Nat.ne_zero_of_lt enough')
    simp only [Expr.text, length_append, length_cons] at enough enough'
    have next : Stops (searches.text ++ 41 :: rest) := by
      cases searches with
      | none => exact stops_close rest
      | more e' more => exact stops_comma _
    obtain ⟨search, evaluated, holds⟩ := ihE fitsE fuel (searches.text ++ 41 :: rest) .unset next
      (by omega)
    obtain ⟨found, searched, least₁⟩ := searchWord_least (s := s) holds.bytes least
    obtain ⟨found', loop, least₂⟩ := ihSearches fitsSearches fuel rounds rest s w _ found bytes
      (by omega) (by omega) least₁
    refine ⟨found', ?_, ?_⟩
    · have shape : (Expr.more e searches).text ++ 41 :: rest =
          44 :: (e.text ++ (searches.text ++ 41 :: rest)) := by simp [Expr.text]
      rw [shape, spLex_char (.inr (.inr rfl)), firstLoop_next evaluated bytes searched]
      exact loop
    · have same (i : Nat) : ((p i ∨ (i < s.length ∧ e.value n <+: s.drop i)) ∨
          FoundAt s (searches.values n) i) ↔
            (p i ∨ FoundAt s ((Expr.more e searches).values n) i) := by
        rw [or_assoc]
        refine or_congr_right ⟨?_, ?_⟩
        · rintro (⟨less, front⟩ | ⟨less, search, mem, front⟩)
          · exact ⟨less, _, .head _, front⟩
          · exact ⟨less, search, .tail _ mem, front⟩
        · rintro ⟨less, search, mem, front⟩
          rcases mem_cons.mp mem with rfl | mem
          · exact .inl ⟨less, front⟩
          · exact .inr ⟨less, search, mem, front⟩
      simp only [same] at least₂
      exact least₂

end Zebra.Source
