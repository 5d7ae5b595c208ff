import Zebra.Lib.Decimal
import Zebra.Lib.SelfDelimiting
import Zebra.Lib.Varint

/-!
# Index formulas of MARC fields

`mc_getfield` reads a field, and `mc_getsubfields` a list of subfields, in-line fields, groups and
variants, over tokens that can be given back.
-/

namespace Zebra.Marcomp

open List Decimal Option

/-- `mc_token` -/
inductive McToken where
  | nop | regular | lVariant | rVariant | lGroup | rGroup | lInline | rInline | subfield | lInterval
  | rInterval
  deriving DecidableEq

/-- `mc_errcode`; memory does not run out. -/
inductive McErrcode where
  | ok | cf | sf | sfGroup | sfVar | sfInline

/-- `mc_context`, without the text -/
structure McContext where
  offset : Nat
  crrval : Byte
  errcode : McErrcode

/-- A field without its list -/
structure McField where
  name : List Byte
  ind1 : List Byte
  ind2 : List Byte
  interval : Int × Int

/-- `MC_SFGROUP` and `MC_SFVARIANT` -/
inductive Nest where
  | group
  | variant

/-- `mc_subfield`: a subfield, one with an in-line field, or a group or variant, and what follows -/
inductive McSubfield where
  | null
  | sf (pre name suffix : List Byte) (interval : Int × Int) (next : McSubfield)
  | inLine (pre name suffix : List Byte) (field : McField) (list next : McSubfield)
  | nested (which : Nest) (child next : McSubfield)

def tokenOf (ch : Byte) : McToken :=
  match ch with
  | 123 => .lVariant
  | 125 => .rVariant
  | 40 => .lGroup
  | 41 => .rGroup
  | 60 => .lInline
  | 62 => .rInline
  | 36 => .subfield
  | 91 => .lInterval
  | 93 => .rInterval
  | ch => if ch = 32 ∨ 9 ≤ ch ∧ ch ≤ 13 then .nop else .regular

variable (data : List Byte)

def mcGettoken (c : McContext) : McToken × McContext :=
  match data[c.offset]? with
  | none => (.nop, c)
  | some ch =>
    (tokenOf ch, { c with
      offset := c.offset + 1
      crrval := if tokenOf ch = .regular then ch else c.crrval })

def mcUngettoken (c : McContext) : McContext := { c with offset := c.offset - 1 }

def mcGetdata : Nat → McContext → List Byte × McContext
  | 0, c => ([], c)
  | sz + 1, c =>
    let (tok, c) := mcGettoken data c
    if tok = .regular then
      let (s, c') := mcGetdata sz c
      (c.crrval :: s, c')
    else ([], mcUngettoken c)

/-- The loop of `mc_getinterval` -/
def bufLoop : Nat → McContext → List Byte × McContext
  | 0, c => ([], c)
  | i + 1, c =>
    let (tok, c) := mcGettoken data c
    if tok = .rInterval ∨ tok = .nop then ([], c)
    else
      let (buf, c') := bufLoop i c
      (c.crrval :: buf, c')

/-- `sscanf` of one `%d`, with the rest -/
def scanInt (s : List Byte) : Option (Int × List Byte) :=
  let number (sign : Int) (s : List Byte) : Option (Int × List Byte) :=
    let digits := s.takeWhile fun ch => 48 ≤ ch ∧ ch ≤ 57
    if digits = [] then none
    else some (sign * value digits, s.dropWhile fun ch => 48 ≤ ch ∧ ch ≤ 57)
  match s with
  | 45 :: s => number (-1) s
  | 43 :: s => number 1 s
  | s => number 1 s

/-- `sscanf` with `%d-%d`, and what is made of its result -/
def scanInterval (buf : List Byte) : Int × Int :=
  if buf = [] then (-1, -1)
  else
    match scanInt buf with
    | none => (0, -1)
    | some (start, 45 :: rest) => (start, ((scanInt rest).map Prod.fst).getD start)
    | some (start, _) => (start, start)

def mcGetinterval (c : McContext) : (Int × Int) × McContext :=
  let (tok, c) := mcGettoken data c
  if tok = .lInterval then
    let (buf, c) := bufLoop data 6 c
    (scanInterval buf, c)
  else ((-1, -1), c)

variable (getsubfields : McContext → Option (McSubfield × McContext))

def mcGetfield (c : McContext) : Option (Option (McField × McSubfield) × McContext) :=
  let (name, c) := mcGetdata data 3 c
  if name.length = 3 then
    let (nexttok, c) := mcGettoken data c
    let c := mcUngettoken c
    let (interval, c) := if nexttok = .lInterval then mcGetinterval data c else ((-1, -1), c)
    let (ind1, c) := mcGetdata data 1 c
    if ind1.length = 1 then
      let (ind2, c) := mcGetdata data 1 c
      if ind2.length = 1 then
        (getsubfields c).map fun (list, c) => (some (⟨name, ind1, ind2, interval⟩, list), c)
      else some (some (⟨name, ind1, ind2, interval⟩, .null), c)
    else some (some (⟨name, ind1, [], interval⟩, .null), c)
  else some (none, { c with errcode := .cf })

/-- Behind the opening mark of a group or variant -/
def getNested (which : Nest) (c : McContext) : Option (McSubfield × McContext) := do
  let (child, c) ← getsubfields c
  let (tok, c) := mcGettoken data c
  match which, tok with
  | .group, .rGroup | .variant, .rVariant =>
    let (next, c) ← getsubfields c
    some (.nested which child next, c)
  | .group, _ => some (.null, { c with errcode := .sfGroup })
  | .variant, _ => some (.null, { c with errcode := .sfVar })

/-- The suffix and what follows -/
def getSuffix (made : List Byte → McSubfield → McSubfield) (c : McContext) :
    Option (McSubfield × McContext) :=
  let (suffix, c) := mcGetdata data 1 c
  if suffix.length = 1 then (getsubfields c).map fun (next, c) => (made suffix next, c)
  else some (.null, { c with errcode := .sf })

/-- A subfield, from behind its name on -/
def getBehind (pre name : List Byte) (c : McContext) : Option (McSubfield × McContext) :=
  let (tok, c) := mcGettoken data c
  let c := mcUngettoken c
  if tok = .lInterval then
    let (interval, c) := mcGetinterval data c
    getSuffix data getsubfields (fun suffix => .sf pre name suffix interval) c
  else if tok = .lInline then do
    let (_, c) := mcGettoken data c
    let (in_line, c) ← mcGetfield data getsubfields c
    let (tok, c) := mcGettoken data c
    if tok = .rInline then
      getSuffix data getsubfields (fun suffix =>
        match in_line with
        | none => .sf pre name suffix (-1, -1)
        | some (field, list) => .inLine pre name suffix field list) c
    else some (.null, { c with errcode := .sfInline })
  else getSuffix data getsubfields (fun suffix => .sf pre name suffix (-1, -1)) c

/-- A subfield, from its prefix on -/
def getSubfield (c : McContext) : Option (McSubfield × McContext) :=
  let (pre, c) := mcGetdata data 1 c
  if pre.length = 1 then
    let (tok, c) := mcGettoken data c
    if tok = .subfield then
      let (name, c) := mcGetdata data 1 c
      if name.length = 1 then getBehind data getsubfields pre name c
      else some (.sf pre name [] (-1, -1) .null, c)
    else some (.sf pre [] [] (-1, -1) .null, c)
  else some (.sf pre [] [] (-1, -1) .null, c)

def mcGetsubfields : Nat → McContext → Option (McSubfield × McContext)
  | 0, _ => none
  | fuel + 1, c =>
    let (tok, c) := mcGettoken data c
    match tok with
    | .lGroup => getNested data (mcGetsubfields fuel) .group c
    | .lVariant => getNested data (mcGetsubfields fuel) .variant c
    | .rGroup | .rVariant | .rInline => some (.null, mcUngettoken c)
    | .regular => getSubfield data (mcGetsubfields fuel) (mcUngettoken c)
    | _ => some (.null, c)

/-- `mc_mk_context`, and the field -/
def parse (fuel : Nat) : Option (Option (McField × McSubfield) × McContext) :=
  mcGetfield data (mcGetsubfields data fuel) ⟨0, 0, .ok⟩

/-- Between the brackets -/
def intervalText (interval : Int × Int) : List Byte :=
  if interval.1 = interval.2 then decimal interval.1.toNat
  else decimal interval.1.toNat ++ 45 :: decimal interval.2.toNat

def printInterval (interval : Int × Int) : List Byte :=
  if interval = (-1, -1) then [] else 91 :: intervalText interval ++ [93]

def McField.print (field : McField) : List Byte :=
  field.name ++ printInterval field.interval ++ field.ind1 ++ field.ind2

def Nest.marks : Nest → Byte × Byte
  | .group => (40, 41)
  | .variant => (123, 125)

def McSubfield.print : McSubfield → List Byte
  | .null => []
  | .sf pre name suffix interval next =>
    pre ++ 36 :: name ++ printInterval interval ++ suffix ++ next.print
  | .inLine pre name suffix field list next =>
    pre ++ 36 :: name ++ 60 :: field.print ++ list.print ++ 62 :: suffix ++ next.print
  | .nested which child next =>
    which.marks.1 :: child.print ++ which.marks.2 :: next.print

/-- Characters that are no marks -/
def Regular (size : Nat) (s : List Byte) : Prop := s.length = size ∧ ∀ ch ∈ s, tokenOf ch = .regular

def Interval (interval : Int × Int) : Prop :=
  interval = (-1, -1) ∨ ∃ m n : Nat, interval = (↑m, ↑n)

structure McField.Formula (field : McField) : Prop where
  name : Regular 3 field.name
  interval : Interval field.interval
  indicators : Regular 1 field.ind1 ∧ Regular 1 field.ind2 ∨ field.ind1 = [] ∧ field.ind2 = []

def McSubfield.Formula : McSubfield → Prop
  | .null => True
  | .sf pre name suffix interval next =>
    (∀ s ∈ [pre, name, suffix], Regular 1 s) ∧ Interval interval ∧ next.Formula
  | .inLine pre name suffix field list next =>
    (∀ s ∈ [pre, name, suffix], Regular 1 s) ∧ field.Formula ∧ list.Formula ∧ next.Formula
  | .nested _ child next => child.Formula ∧ next.Formula

/-- The buffer holds an interval and its closing bracket. -/
def Short (interval : Int × Int) : Prop := (intervalText interval).length < 6

/-- Where the code goes wrong: an interval is too long, or an in-line field has a list and no
indicators. -/
def McSubfield.Fits : McSubfield → Prop
  | .null => True
  | .sf _ _ _ interval next => Short interval ∧ next.Fits
  | .inLine _ _ _ field list next =>
    Short field.interval ∧ (field.ind1 = [] → list = .null) ∧ list.Fits ∧ next.Fits
  | .nested _ child next => child.Fits ∧ next.Fits

variable {data : List Byte} {getsubfields : McContext → Option (McSubfield × McContext)}
  {c c' : McContext} {ch : Byte} {s rest : List Byte} {start : Nat}

theorem gettoken_offset {tok : McToken} (token : mcGettoken data c = (tok, c')) :
    c'.offset = c.offset ∧ tok = .nop ∨ c'.offset = c.offset + 1 ∧ c.offset < data.length := by
  rw [mcGettoken] at token
  split at token
  · cases token
    exact .inl ⟨rfl, rfl⟩
  · next get =>
    cases token
    exact .inr ⟨rfl, (List.getElem?_eq_some_iff.mp get).1⟩

theorem getdata_offset {size : Nat} (read : mcGetdata data size c = (s, c')) :
    (s.length = size → c'.offset = c.offset + size) ∧ c.offset ≤ c'.offset + 1 := by
  induction size generalizing c c' s with
  | zero =>
    cases read
    exact ⟨fun _ => rfl, Nat.le_succ _⟩
  | succ size ih =>
    rw [mcGetdata] at read
    rcases token : mcGettoken data c with ⟨tok, c1⟩
    rcases more : mcGetdata data size c1 with ⟨s1, c2⟩
    have step := gettoken_offset token
    have later := ih more
    simp only [token, more] at read
    split at read
    · next regular =>
      cases read
      subst regular
      simp only [reduceCtorEq, and_false, false_or] at step
      exact ⟨fun size => by rw [later.1 (Nat.succ_inj.mp size)]; omega, by omega⟩
    · cases read
      exact ⟨fun size => absurd size (by simp), by rw [mcUngettoken]; dsimp only; omega⟩

theorem bufLoop_offset {i : Nat} (read : bufLoop data i c = (s, c')) : c.offset ≤ c'.offset := by
  induction i generalizing c c' s with
  | zero => cases read; exact le_refl _
  | succ i ih =>
    rw [bufLoop] at read
    rcases token : mcGettoken data c with ⟨tok, c1⟩
    rcases more : bufLoop data i c1 with ⟨s1, c2⟩
    have step := gettoken_offset token
    have later := ih more
    simp only [token, more] at read
    split at read <;> cases read <;> omega

theorem getinterval_offset {interval : Int × Int} (read : mcGetinterval data c = (interval, c')) :
    c.offset ≤ c'.offset := by
  rw [mcGetinterval] at read
  rcases token : mcGettoken data c with ⟨tok, c1⟩
  rcases buf : bufLoop data 6 c1 with ⟨s, c2⟩
  have step := gettoken_offset token
  have later := bufLoop_offset buf
  simp only [token, buf] at read
  split at read <;> cases read <;> omega

/-- A result, at most one character in front of where it began -/
def Proceeds {α : Type} (f : McContext → Option (α × McContext)) (c : McContext) : Prop :=
  ∃ out c', f c = some (out, c') ∧ c.offset ≤ c'.offset + 1

theorem getSuffix_proceeds (proceeds : ∀ c, start < c.offset → Proceeds getsubfields c)
    (made : List Byte → McSubfield → McSubfield) (le : start ≤ c.offset) :
    Proceeds (getSuffix data getsubfields made) c := by
  rw [Proceeds, getSuffix]
  rcases read : mcGetdata data 1 c with ⟨suffix, c1⟩
  have step := getdata_offset read
  dsimp only
  split
  · next one =>
    have offset := step.1 one
    obtain ⟨next, c2, next_eq, next_le⟩ := proceeds c1 (by omega)
    exact ⟨_, c2, by rw [next_eq]; rfl, by omega⟩
  · exact ⟨_, _, rfl, step.2⟩

theorem getfield_proceeds (proceeds : ∀ c, start < c.offset → Proceeds getsubfields c)
    (le : start ≤ c.offset) : Proceeds (mcGetfield data getsubfields) c := by
  rw [Proceeds, mcGetfield]
  rcases read : mcGetdata data 3 c with ⟨name, c1⟩
  have name_step := getdata_offset read
  dsimp only
  split
  · next three =>
    have offset := name_step.1 three
    rcases token : mcGettoken data c1 with ⟨tok, c2⟩
    have peek := gettoken_offset token
    have back : (mcUngettoken c2).offset = c2.offset - 1 := rfl
    dsimp only
    generalize read : (if tok = .lInterval then mcGetinterval data (mcUngettoken c2)
      else ((-1, -1), mcUngettoken c2)) = both
    obtain ⟨interval, c3⟩ := both
    have further : c1.offset ≤ c3.offset + 1 := by
      split at read
      · have := getinterval_offset read
        omega
      · cases read
        omega
    rcases read1 : mcGetdata data 1 c3 with ⟨ind1, c4⟩
    rcases read2 : mcGetdata data 1 c4 with ⟨ind2, c5⟩
    have first := getdata_offset read1
    have second := getdata_offset read2
    dsimp only
    split
    · next one =>
      have offset1 := first.1 one
      split
      · next one =>
        have offset2 := second.1 one
        obtain ⟨list, c6, list_eq, list_le⟩ := proceeds c5 (by omega)
        exact ⟨_, c6, by rw [list_eq]; rfl, by omega⟩
      · exact ⟨_, _, rfl, by omega⟩
    · exact ⟨_, _, rfl, by omega⟩
  · exact ⟨_, _, rfl, name_step.2⟩

theorem getNested_proceeds (proceeds : ∀ c, start < c.offset → Proceeds getsubfields c)
    (which : Nest) (lt : start < c.offset) :
    ∃ out c', getNested data getsubfields which c = some (out, c') ∧ c.offset ≤ c'.offset + 2 := by
  obtain ⟨child, c1, child_eq, child_le⟩ := proceeds c lt
  rcases token : mcGettoken data c1 with ⟨tok, c2⟩
  have step := gettoken_offset token
  simp only [getNested, child_eq, token, bind_eq_bind, bind_some]
  split
  all_goals try exact ⟨_, _, rfl, by dsimp only; omega⟩
  all_goals
    simp only [reduceCtorEq, and_false, false_or] at step
    obtain ⟨next, c3, next_eq, next_le⟩ := proceeds c2 (by omega)
    exact ⟨_, c3, by rw [next_eq]; rfl, by omega⟩

theorem getBehind_proceeds (proceeds : ∀ c, start < c.offset → Proceeds getsubfields c)
    (pre name : List Byte) (le : start + 3 ≤ c.offset) :
    ∃ out c', getBehind data getsubfields pre name c = some (out, c') ∧ start ≤ c'.offset + 1 := by
  rw [getBehind]
  rcases token : mcGettoken data c with ⟨tok, c1⟩
  have peek := gettoken_offset token
  have back : (mcUngettoken c1).offset = c1.offset - 1 := rfl
  have suffix {d : McContext} (made : List Byte → McSubfield → McSubfield)
      (le : start + 2 ≤ d.offset) :
      ∃ out c', getSuffix data getsubfields made d = some (out, c') ∧ start ≤ c'.offset + 1 := by
    obtain ⟨out, c', eq, le'⟩ :=
      @getSuffix_proceeds data getsubfields d start proceeds made (by omega)
    exact ⟨out, c', eq, by omega⟩
  dsimp only
  split
  · rcases read : mcGetinterval data (mcUngettoken c1) with ⟨interval, c2⟩
    have interval_le := getinterval_offset read
    dsimp only
    exact suffix _ (by omega)
  · split
    · rcases token : mcGettoken data (mcUngettoken c1) with ⟨tok, c2⟩
      have mark := gettoken_offset token
      obtain ⟨in_line, c3, field_eq, field_le⟩ :=
        @getfield_proceeds data getsubfields c2 start proceeds (by omega)
      rcases token : mcGettoken data c3 with ⟨tok, c4⟩
      have close := gettoken_offset token
      simp only [field_eq, token, bind_eq_bind, bind_some]
      split
      · next rInline =>
        simp only [rInline, reduceCtorEq, and_false, false_or] at close
        exact suffix _ (by omega)
      · exact ⟨_, _, rfl, by dsimp only; omega⟩
    · exact suffix _ (by omega)

theorem getSubfield_proceeds (proceeds : ∀ c', c.offset < c'.offset → Proceeds getsubfields c') :
    Proceeds (getSubfield data getsubfields) c := by
  rw [Proceeds, getSubfield]
  rcases read : mcGetdata data 1 c with ⟨pre, c1⟩
  have pre_step := getdata_offset read
  dsimp only
  rcases token : mcGettoken data c1 with ⟨tok, c2⟩
  have mark := gettoken_offset token
  dsimp only
  rcases read : mcGetdata data 1 c2 with ⟨name, c3⟩
  have name_step := getdata_offset read
  dsimp only
  split
  · next one =>
    have pre_offset := pre_step.1 one
    split
    · next subfield =>
      simp only [subfield, reduceCtorEq, and_false, false_or] at mark
      split
      · next one =>
        have name_offset := name_step.1 one
        exact getBehind_proceeds proceeds pre name (by omega)
      · exact ⟨_, _, rfl, by omega⟩
    · exact ⟨_, _, rfl, by omega⟩
  · exact ⟨_, _, rfl, pre_step.2⟩

theorem getsubfields_proceeds {fuel : Nat} (enough : data.length - c.offset < fuel) :
    Proceeds (mcGetsubfields data fuel) c := by
  induction fuel generalizing c with
  | zero => exact absurd enough (Nat.not_lt_zero _)
  | succ fuel ih =>
    rcases token : mcGettoken data c with ⟨tok, c1⟩
    have step := gettoken_offset token
    have back : (mcUngettoken c1).offset = c1.offset - 1 := rfl
    have nested (which : Nest) (ne : tok ≠ .nop) :
        Proceeds (fun c => getNested data (mcGetsubfields data fuel) which c1) c := by
      obtain ⟨offset, inside⟩ := step.resolve_left fun nop => ne nop.2
      obtain ⟨out, c2, eq, le⟩ := @getNested_proceeds data (mcGetsubfields data fuel) c1 c.offset
        (fun c' lt => ih (by omega)) which (by omega)
      exact ⟨out, c2, eq, by omega⟩
    rw [Proceeds, mcGetsubfields, token]
    dsimp only
    split
    · exact nested .group (by decide)
    · exact nested .variant (by decide)
    · exact ⟨_, _, rfl, by omega⟩
    · exact ⟨_, _, rfl, by omega⟩
    · exact ⟨_, _, rfl, by omega⟩
    · obtain ⟨offset, inside⟩ := step.resolve_left fun nop => absurd nop.2 (by decide)
      obtain ⟨out, c2, eq, le⟩ := @getSubfield_proceeds data (mcGetsubfields data fuel)
        (mcUngettoken c1) fun c' lt => ih (by omega)
      exact ⟨out, c2, eq, by omega⟩
    · exact ⟨_, _, rfl, by omega⟩

theorem drop_next {o : Nat} (here : data.drop o = s ++ rest) : data.drop (o + s.length) = rest := by
  rw [← drop_drop, here, drop_left]

theorem gettoken_of (here : data.drop c.offset = ch :: rest) :
    ∃ c', mcGettoken data c = (tokenOf ch, c') ∧ c'.offset = c.offset + 1 ∧
      (tokenOf ch = .regular → c'.crrval = ch) := by
  have get : data[c.offset]? = some ch := by
    rw [← List.head?_drop, here]
    rfl
  exact ⟨_, by rw [mcGettoken, get], rfl, fun regular => if_pos regular⟩

theorem getdata_of {size : Nat} (regular : Regular size s) (here : data.drop c.offset = s ++ rest) :
    ∃ c', mcGetdata data size c = (s, c') ∧ c'.offset = c.offset + size ∧
      data.drop c'.offset = rest := by
  obtain ⟨rfl, chars⟩ := regular
  induction s generalizing c with
  | nil => exact ⟨c, rfl, rfl, here⟩
  | cons ch s ih =>
    obtain ⟨c1, token, offset, value⟩ := gettoken_of here
    have regular := chars ch mem_cons_self
    have here' : data.drop c1.offset = s ++ rest := offset ▸ drop_next (s := [ch]) here
    obtain ⟨c2, read, offset', behind⟩ := ih here' fun ch mem => chars ch (.tail _ mem)
    refine ⟨c2, ?_, by rw [length_cons]; omega, behind⟩
    rw [length_cons, mcGetdata, token, regular]
    dsimp only
    rw [if_pos rfl, read, value regular]

theorem bufLoop_of {i : Nat} (chars : ∀ ch ∈ s, tokenOf ch = .regular) (lt : s.length < i)
    (here : data.drop c.offset = s ++ 93 :: rest) :
    ∃ c', bufLoop data i c = (s, c') ∧ c'.offset = c.offset + s.length + 1 := by
  induction s generalizing c i with
  | nil =>
    obtain ⟨i, rfl⟩ := Nat.exists_eq_succ_of_ne_zero (Nat.ne_zero_of_lt lt)
    obtain ⟨c1, token, offset, -⟩ := gettoken_of here
    exact ⟨c1, by rw [bufLoop, token]; rfl, offset⟩
  | cons ch s ih =>
    obtain ⟨i, rfl⟩ := Nat.exists_eq_succ_of_ne_zero (Nat.ne_zero_of_lt lt)
    obtain ⟨c1, token, offset, value⟩ := gettoken_of here
    have regular := chars ch mem_cons_self
    obtain ⟨c2, read, offset'⟩ := ih (fun ch mem => chars ch (.tail _ mem))
      (Nat.succ_lt_succ_iff.mp lt) (offset ▸ drop_next (s := [ch]) here)
    refine ⟨c2, ?_, by rw [length_cons]; omega⟩
    rw [bufLoop, token, regular]
    dsimp only
    rw [if_neg (by decide), read, value regular]

theorem scanInt_decimal (n : Nat) (stop : ∀ ch ∈ rest.head?, ¬(48 ≤ ch ∧ ch ≤ 57)) :
    scanInt (decimal n ++ rest) = some (↑n, rest) := by
  obtain ⟨digits, ne, -⟩ := canonical_decimal n
  have inside : ∀ ch ∈ decimal n, decide (48 ≤ ch ∧ ch ≤ 57) = true :=
    fun ch mem => decide_eq_true (digits ch mem)
  have behind : (rest.takeWhile fun ch => decide (48 ≤ ch ∧ ch ≤ 57)) = [] ∧
      (rest.dropWhile fun ch => decide (48 ≤ ch ∧ ch ≤ 57)) = rest := by
    cases rest with
    | nil => exact ⟨rfl, rfl⟩
    | cons ch rest =>
      have no := stop ch rfl
      exact ⟨takeWhile_cons_of_neg (by simpa using no), dropWhile_cons_of_neg (by simpa using no)⟩
  have first {ch : Byte} {w : List Byte} (eq : decimal n ++ rest = ch :: w) : 48 ≤ ch := by
    obtain ⟨d, v, decimal_eq⟩ := exists_cons_of_ne_nil ne
    rw [decimal_eq] at eq
    exact (List.cons.inj eq).1 ▸ (digits d (decimal_eq ▸ mem_cons_self)).1
  rw [scanInt]
  · dsimp only
    rw [takeWhile_append_of_pos inside, dropWhile_append_of_pos inside, behind.1, behind.2,
      append_nil, if_neg ne, value_decimal, one_mul]
  · exact fun s eq => absurd (first eq) (by decide)
  · exact fun s eq => absurd (first eq) (by decide)

theorem scanInterval_text (m n : Nat) : scanInterval (intervalText (↑m, ↑n)) = (↑m, ↑n) := by
  have ne {m : Nat} {s : List Byte} : decimal m ++ s ≠ [] :=
    append_ne_nil_of_left_ne_nil (canonical_decimal m).ne_nil s
  have alone := @scanInt_decimal [] n (by simp)
  rw [intervalText]
  dsimp only [Int.toNat_natCast]
  split
  · next same =>
    obtain rfl := Int.ofNat_inj.mp same
    rw [← append_nil (decimal m), scanInterval, if_neg ne, alone]
  · rw [scanInterval, if_neg ne, scanInt_decimal m (by simp), ← append_nil (decimal n)]
    change (_, ((scanInt (decimal n ++ [])).map Prod.fst).getD _) = _
    rw [alone]
    rfl

theorem getinterval_of {interval : Int × Int} (formula : Interval interval)
    (ne : interval ≠ (-1, -1))
    (short : Short interval) (here : data.drop c.offset = printInterval interval ++ rest) :
    ∃ c', mcGetinterval data c = (interval, c') ∧
      c'.offset = c.offset + (printInterval interval).length := by
  obtain ⟨m, n, rfl⟩ := formula.resolve_left ne
  rw [printInterval, if_neg ne] at here ⊢
  have number (k : Nat) : ∀ ch ∈ decimal k, tokenOf ch = .regular := by
    intro ch mem
    obtain ⟨low, high⟩ := (canonical_decimal k).digits ch mem
    exact (by decide : ∀ ch < 58, 48 ≤ ch → tokenOf ch = .regular) ch (Nat.lt_succ_of_le high) low
  have chars : ∀ ch ∈ intervalText (↑m, ↑n), tokenOf ch = .regular := by
    rw [intervalText]
    split
    · exact number m
    · exact forall_mem_append.mpr ⟨number m, forall_mem_cons.mpr ⟨rfl, number n⟩⟩
  obtain ⟨c1, token, offset, -⟩ := gettoken_of here
  have behind : data.drop c1.offset = intervalText (↑m, ↑n) ++ 93 :: rest := by
    rw [offset, ← drop_drop, here]
    simp
  obtain ⟨c2, read, offset'⟩ := bufLoop_of chars short behind
  refine ⟨c2, ?_, by simp; omega⟩
  rw [mcGetinterval, token]
  dsimp only
  rw [if_pos (show tokenOf 91 = .lInterval from rfl), read, scanInterval_text]

/-- Looking at a token and giving it back -/
theorem peek_of (here : data.drop c.offset = ch :: rest) :
    ∃ c', mcGettoken data c = (tokenOf ch, c') ∧ (mcUngettoken c').offset = c.offset := by
  obtain ⟨c1, token, offset, -⟩ := gettoken_of here
  exact ⟨c1, token, by rw [mcUngettoken, offset]; rfl⟩

theorem getSuffix_of (made : List Byte → McSubfield → McSubfield) {next : McSubfield} {stop : Nat}
    (regular : Regular 1 s) (here : data.drop c.offset = s ++ rest)
    (ready : ∀ c', c'.offset = c.offset + 1 → data.drop c'.offset = rest →
      ∃ c'', getsubfields c' = some (next, c'') ∧ c''.offset = stop) :
    ∃ c', getSuffix data getsubfields made c = some (made s next, c') ∧ c'.offset = stop := by
  obtain ⟨c1, read, offset, here'⟩ := getdata_of regular here
  obtain ⟨c2, next_eq, stop_eq⟩ := ready c1 offset here'
  refine ⟨c2, ?_, stop_eq⟩
  rw [getSuffix, read]
  dsimp only
  rw [if_pos regular.1, next_eq]
  rfl

theorem getfield_of {field : McField} {list : McSubfield} {stop : Nat} (formula : field.Formula)
    (short : Short field.interval) (here : data.drop c.offset = field.print ++ rest)
    (ready : field.ind1 ≠ [] → ∀ c', c'.offset = c.offset + field.print.length →
      data.drop c'.offset = rest → ∃ c'', getsubfields c' = some (list, c'') ∧ c''.offset = stop)
    (bare : field.ind1 = [] → list = .null ∧ stop = c.offset + field.print.length ∧
      ∃ rest', rest = 62 :: rest') :
    ∃ c', mcGetfield data getsubfields c = some (some (field, list), c') ∧ c'.offset = stop := by
  obtain ⟨name, ind1, ind2, interval⟩ := field
  obtain ⟨name_formula, interval_formula, indicators⟩ := formula
  rw [McField.print, append_assoc, append_assoc, append_assoc] at here
  have size : (McField.print ⟨name, ind1, ind2, interval⟩).length =
      3 + (printInterval interval).length + ind1.length + ind2.length := by
    rw [McField.print, length_append, length_append, length_append, name_formula.1]
  dsimp only at *
  obtain ⟨c1, name_eq, offset1, here1⟩ := getdata_of name_formula here
  -- whatever follows the name is looked at
  obtain ⟨ch, behind, next_eq, mark⟩ : ∃ ch behind, ind1 ++ (ind2 ++ rest) = ch :: behind ∧
      tokenOf ch ≠ .lInterval := by
    rcases indicators with ⟨⟨one, chars⟩, -⟩ | ⟨rfl, rfl⟩
    · obtain ⟨ch, rfl⟩ := length_eq_one_iff.mp one
      exact ⟨ch, _, rfl, by rw [chars ch mem_cons_self]; decide⟩
    · obtain ⟨-, -, rest', rfl⟩ := bare rfl
      exact ⟨62, rest', rfl, by decide⟩
  obtain ⟨tok, c2, c3, token, interval_eq, offset3⟩ : ∃ tok c2 c3, mcGettoken data c1 = (tok, c2) ∧
      (if tok = .lInterval then mcGetinterval data (mcUngettoken c2)
        else ((-1, -1), mcUngettoken c2)) = (interval, c3) ∧
      c3.offset = c1.offset + (printInterval interval).length := by
    by_cases none : interval = (-1, -1)
    · subst none
      obtain ⟨c2, token, offset2⟩ := peek_of (here1.trans next_eq)
      exact ⟨_, c2, _, token, if_neg mark, offset2⟩
    · have bracket := here1
      rw [printInterval, if_neg none] at bracket
      obtain ⟨c2, token, offset2⟩ := peek_of bracket
      obtain ⟨c3, interval_eq, offset3⟩ :=
        getinterval_of interval_formula none short (offset2.symm ▸ here1)
      exact ⟨_, c2, c3, token, (if_pos rfl).trans interval_eq, by rw [offset3, offset2]⟩
  have here3 : data.drop c3.offset = ind1 ++ (ind2 ++ rest) := offset3 ▸ drop_next here1
  rw [mcGetfield, name_eq]
  dsimp only
  rw [if_pos name_formula.1, token]
  dsimp only
  rw [interval_eq]
  dsimp only
  rcases indicators with ⟨regular1, regular2⟩ | ⟨rfl, rfl⟩
  · obtain ⟨c4, ind1_eq, offset4, here4⟩ := getdata_of regular1 here3
    obtain ⟨c5, ind2_eq, offset5, here5⟩ := getdata_of regular2 here4
    have one := regular1.1
    obtain ⟨c6, list_eq, stop_eq⟩ := ready (fun nil => by simp [nil] at one) c5
      (by rw [size, one, regular2.1]; omega) here5
    refine ⟨c6, ?_, stop_eq⟩
    rw [ind1_eq]
    dsimp only
    rw [if_pos one, ind2_eq]
    dsimp only
    rw [if_pos regular2.1, list_eq]
    rfl
  · obtain ⟨rfl, stop_eq, rest', rfl⟩ := bare rfl
    obtain ⟨c4, token, offset4⟩ := peek_of here3
    refine ⟨mcUngettoken c4, ?_, ?_⟩
    · rw [mcGetdata, token]
      rfl
    · rw [offset4, stop_eq, size, offset3, offset1, length_nil]
      omega

theorem inside_of {o : Nat} (here : data.drop o = ch :: rest) : o < data.length := by
  by_contra beyond
  rw [drop_eq_nil_of_le (not_lt.mp beyond)] at here
  exact cons_ne_nil _ _ here.symm

theorem subfield_of {pre name : List Byte} (fuel : Nat) (pre_regular : Regular 1 pre)
    (name_regular : Regular 1 name) (here : data.drop c.offset = pre ++ 36 :: name ++ rest) :
    ∃ c', mcGetsubfields data (fuel + 1) c = getBehind data (mcGetsubfields data fuel) pre name c' ∧
      c'.offset = c.offset + 3 ∧ data.drop c'.offset = rest := by
  obtain ⟨ch, rfl⟩ := length_eq_one_iff.mp pre_regular.1
  rw [append_assoc, cons_append] at here
  obtain ⟨c0, token, back⟩ := peek_of here
  obtain ⟨c1, pre_eq, offset1, here1⟩ := getdata_of pre_regular (back.symm ▸ here)
  obtain ⟨c2, dollar, offset2, -⟩ := gettoken_of here1
  obtain ⟨c3, name_eq, offset3, here3⟩ :=
    getdata_of name_regular (c := c2) (offset2 ▸ drop_next (s := [36]) here1)
  refine ⟨c3, ?_, by omega, here3⟩
  rw [mcGetsubfields, token, pre_regular.2 ch mem_cons_self]
  dsimp only
  rw [getSubfield, pre_eq]
  dsimp only
  rw [if_pos pre_regular.1, dollar]
  dsimp only
  rw [if_pos (show tokenOf 36 = .subfield from rfl), name_eq]
  dsimp only
  rw [if_pos name_regular.1]

/-- What may follow a list of subfields -/
def Stops (rest : List Byte) : Prop :=
  rest = [] ∨ ∃ ch rest', rest = ch :: rest' ∧ tokenOf ch ∈ [McToken.rGroup, .rVariant, .rInline]

theorem getsubfields_of {l : McSubfield} (formula : l.Formula) (fits : l.Fits) (stops : Stops rest)
    {fuel : Nat} (enough : data.length - c.offset < fuel)
    (here : data.drop c.offset = l.print ++ rest) :
    ∃ c', mcGetsubfields data fuel c = some (l, c') ∧ c'.offset = c.offset + l.print.length := by
  induction l generalizing c fuel rest with
  | null =>
    obtain ⟨fuel, rfl⟩ := Nat.exists_eq_succ_of_ne_zero (Nat.ne_zero_of_lt enough)
    rcases stops with rfl | ⟨ch, rest', rfl, mark⟩
    · have get : data[c.offset]? = none := by
        rw [← List.head?_drop, here]
        rfl
      exact ⟨c, by rw [mcGetsubfields, mcGettoken, get], rfl⟩
    · obtain ⟨c1, token, back⟩ := peek_of here
      refine ⟨mcUngettoken c1, ?_, back⟩
      simp only [mem_cons, not_mem_nil, or_false] at mark
      rcases mark with mark | mark | mark <;> rw [mcGetsubfields, token, mark]
  | nested which child next child_ih next_ih =>
    obtain ⟨fuel, rfl⟩ := Nat.exists_eq_succ_of_ne_zero (Nat.ne_zero_of_lt enough)
    rw [McSubfield.print, cons_append, cons_append, append_assoc,
      cons_append] at here
    obtain ⟨c1, token, offset, -⟩ := gettoken_of here
    have here1 : data.drop c1.offset = child.print ++ which.marks.2 :: (next.print ++ rest) :=
      offset ▸ drop_next (s := [_]) here
    have inside := inside_of here
    have enough1 : data.length - c1.offset < fuel := by omega
    obtain ⟨c2, child_eq, child_offset⟩ := child_ih formula.1 fits.1
      (.inr ⟨_, _, rfl, by cases which <;> decide⟩) enough1 here1
    have here2 := child_offset ▸ drop_next here1
    obtain ⟨c3, token', offset', -⟩ := gettoken_of here2
    have here3 : data.drop c3.offset = next.print ++ rest := offset' ▸ drop_next (s := [_]) here2
    have enough3 : data.length - c3.offset < fuel := by omega
    obtain ⟨c4, next_eq, next_offset⟩ := next_ih formula.2 fits.2 stops enough3 here3
    refine ⟨c4, ?_, by rw [McSubfield.print]; simp; omega⟩
    have nested : getNested data (mcGetsubfields data fuel) which c1 =
        some (.nested which child next, c4) := by
      simp only [getNested, child_eq, token', next_eq, bind_eq_bind, bind_some]
      cases which <;> rfl
    rw [mcGetsubfields, token]
    cases which <;> exact nested
  | sf pre name suffix interval next ih =>
    obtain ⟨fuel, rfl⟩ := Nat.exists_eq_succ_of_ne_zero (Nat.ne_zero_of_lt enough)
    obtain ⟨regular, interval_formula, next_formula⟩ := formula
    have regular_suffix := regular suffix (by simp)
    obtain ⟨ch, rfl⟩ := length_eq_one_iff.mp regular_suffix.1
    have here' : data.drop c.offset = pre ++ 36 :: name ++
        (printInterval interval ++ ([ch] ++ (next.print ++ rest))) := by
      rw [here, McSubfield.print]
      simp
    obtain ⟨c3, start_eq, offset3, here3⟩ :=
      subfield_of fuel (regular pre (by simp)) (regular name (by simp)) here'
    have here4 := drop_next here3
    have inside := inside_of here4
    have ready (c5 : McContext) (offset : c5.offset = c3.offset +
        (printInterval interval).length + 1)
        (here5 : data.drop c5.offset = next.print ++ rest) :
        ∃ c6, mcGetsubfields data fuel c5 = some (next, c6) ∧
          c6.offset = c.offset + (McSubfield.print (.sf pre name [ch] interval next)).length := by
      have enough5 : data.length - c5.offset < fuel := by omega
      obtain ⟨c6, next_eq, next_offset⟩ := ih next_formula fits.2 stops enough5 here5
      refine ⟨c6, next_eq, ?_⟩
      rw [McSubfield.print]
      simp [(regular pre _).1, (regular name _).1]
      omega
    by_cases none : interval = (-1, -1)
    · subst none
      obtain ⟨c4, token, back⟩ := peek_of here3
      obtain ⟨c5, suffix_eq, stop⟩ := getSuffix_of (fun suffix => .sf pre name suffix (-1, -1))
        regular_suffix (back.symm ▸ here3) (fun c5 offset => ready c5 (by rw [offset, back]; rfl))
      refine ⟨c5, ?_, stop⟩
      have mark := regular_suffix.2 ch mem_cons_self
      rw [start_eq, getBehind, token, mark]
      exact suffix_eq
    · have bracket := here3
      rw [printInterval, if_neg none] at bracket
      obtain ⟨c4, token, back⟩ := peek_of bracket
      obtain ⟨c5, interval_eq, offset5⟩ :=
        getinterval_of interval_formula none fits.1 (back.symm ▸ here3)
      rw [back] at offset5
      obtain ⟨c6, suffix_eq, stop⟩ := getSuffix_of (fun suffix => .sf pre name suffix interval)
        regular_suffix (offset5.symm ▸ here4) (fun c6 offset => ready c6 (by rw [offset, offset5]))
      refine ⟨c6, ?_, stop⟩
      rw [start_eq, getBehind, token]
      dsimp only
      rw [if_pos (show tokenOf 91 = .lInterval from rfl), interval_eq]
      exact suffix_eq
  | inLine pre name suffix field list next list_ih ih =>
    obtain ⟨fuel, rfl⟩ := Nat.exists_eq_succ_of_ne_zero (Nat.ne_zero_of_lt enough)
    obtain ⟨regular, field_formula, list_formula, next_formula⟩ := formula
    obtain ⟨short, bare, list_fits, next_fits⟩ := fits
    have here' : data.drop c.offset = pre ++ 36 :: name ++
        (60 :: (field.print ++ (list.print ++ 62 :: (suffix ++ (next.print ++ rest))))) := by
      rw [here, McSubfield.print]
      simp
    obtain ⟨c3, start_eq, offset3, here3⟩ :=
      subfield_of fuel (regular pre (by simp)) (regular name (by simp)) here'
    have inside := inside_of here3
    obtain ⟨c4, token, back⟩ := peek_of here3
    obtain ⟨c5, token', offset5, -⟩ := gettoken_of (back.symm ▸ here3)
    have here5 : data.drop c5.offset =
        field.print ++ (list.print ++ 62 :: (suffix ++ (next.print ++ rest))) := by
      rw [offset5, back]
      exact drop_next (s := [60]) here3
    have here7 := drop_next (drop_next here5)
    have ready (_ : field.ind1 ≠ []) (c6 : McContext) (offset6 : c6.offset = c5.offset +
        field.print.length)
        (here6 : data.drop c6.offset = list.print ++ 62 :: (suffix ++ (next.print ++ rest))) :
        ∃ c7, mcGetsubfields data fuel c6 = some (list, c7) ∧
          c7.offset = c5.offset + field.print.length + list.print.length := by
      have enough6 : data.length - c6.offset < fuel := by omega
      rw [← offset6]
      exact list_ih list_formula list_fits (.inr ⟨62, _, rfl, by decide⟩) enough6 here6
    obtain ⟨c7, field_eq, offset7⟩ := getfield_of field_formula short here5 ready fun nil => by
      obtain rfl := bare nil
      exact ⟨rfl, rfl, _, rfl⟩
    obtain ⟨c8, close, offset8, -⟩ := gettoken_of (offset7.symm ▸ here7)
    have here8 : data.drop c8.offset = suffix ++ (next.print ++ rest) := by
      rw [offset8, offset7]
      exact drop_next (s := [62]) here7
    have behind (c9 : McContext) (offset9 : c9.offset = c8.offset + 1)
        (here9 : data.drop c9.offset = next.print ++ rest) :
        ∃ c10, mcGetsubfields data fuel c9 = some (next, c10) ∧
          c10.offset = c8.offset + 1 + next.print.length := by
      have enough9 : data.length - c9.offset < fuel := by omega
      rw [← offset9]
      exact ih next_formula next_fits stops enough9 here9
    obtain ⟨c9, suffix_eq, stop⟩ := getSuffix_of (fun suffix => .inLine pre name suffix field list)
      (regular suffix (by simp)) here8 behind
    refine ⟨c9, ?_, ?_⟩
    · rw [start_eq, getBehind, token]
      simp only [token', field_eq, close, bind_eq_bind, bind_some]
      exact suffix_eq
    · rw [stop, McSubfield.print]
      simp [(regular pre _).1, (regular name _).1, (regular suffix _).1]
      omega

/-- Every text comes to an end, and what is printed of a field with indicators is read back if every
interval fits the buffer and every in-line field with a list has indicators. -/
theorem mcGetfield_print (data : List Byte) :
    (∀ fuel > data.length, ∃ out, parse data fuel = some out) ∧
      ∀ (field : McField) (list : McSubfield), field.Formula → list.Formula →
        data = field.print ++ list.print → field.ind1 ≠ [] → Short field.interval → list.Fits →
          ∀ fuel > data.length, ∃ c, parse data fuel = some (some (field, list), c) ∧
            c.offset = data.length := by
  constructor
  · intro fuel enough
    obtain ⟨out, c, eq, -⟩ := @getfield_proceeds data (mcGetsubfields data fuel) ⟨0, 0, .ok⟩ 0
      (fun c _ => getsubfields_proceeds (by omega)) (le_refl _)
    exact ⟨_, eq⟩
  · intro field list field_formula list_formula text indicators short fits fuel enough
    have here : data.drop 0 = field.print ++ list.print := text
    refine getfield_of field_formula short here (fun _ c offset here => ?_)
      fun nil => absurd nil indicators
    have enough' : data.length - c.offset < fuel := by omega
    obtain ⟨c', eq, offset'⟩ := getsubfields_of list_formula fits (.inl rfl) enough'
      (here.trans (append_nil _).symm)
    refine ⟨c', eq, ?_⟩
    rw [offset', offset, text, length_append]
    exact congrArg (· + _) (Nat.zero_add _)

/-- `24500(a$bc)` -/
theorem mcGetfield_print_group : ∃ c, parse [50, 52, 53, 48, 48, 40, 97, 36, 98, 99, 41] 12 =
    some (some (⟨[50, 52, 53], [48], [48], (-1, -1)⟩,
      .nested .group (.sf [97] [98] [99] (-1, -1) .null) .null), c) ∧ c.offset = 11 := by
  have short : Short (-1, -1) := by
    rw [Short]
    decide
  have regular : ∀ s ∈ [[97], [98], [99]], Regular 1 s := by
    rw [forall_mem_cons, forall_mem_cons, forall_mem_singleton]
    exact ⟨⟨rfl, by decide⟩, ⟨rfl, by decide⟩, rfl, by decide⟩
  exact (mcGetfield_print _).2 ⟨[50, 52, 53], [48], [48], (-1, -1)⟩
    (.nested .group (.sf [97] [98] [99] (-1, -1) .null) .null)
    ⟨⟨rfl, by decide⟩, .inl rfl, .inl ⟨⟨rfl, by decide⟩, rfl, by decide⟩⟩
    ⟨⟨regular, .inl rfl, trivial⟩, trivial⟩ rfl (cons_ne_nil _ _) short
    ⟨⟨short, trivial⟩, trivial⟩ 12 (by decide)

/-- Of `245`, the last character is read again as an indicator. -/
theorem not_mcGetfield_print : ¬∀ (data : List Byte) (field : McField) (list : McSubfield),
    field.Formula → list.Formula → data = field.print ++ list.print → ∀ fuel > data.length,
      ∃ c, parse data fuel = some (some (field, list), c) ∧ c.offset = data.length := by
  intro all
  obtain ⟨c, eq, -⟩ := all [50, 52, 53] ⟨[50, 52, 53], [], [], (-1, -1)⟩ .null
    ⟨⟨rfl, by decide⟩, .inl rfl, .inr ⟨rfl, rfl⟩⟩ trivial rfl 4 (by decide)
  have again : parse [50, 52, 53] 4 =
      some (some (⟨[50, 52, 53], [53], [], (-1, -1)⟩, .null), ⟨2, 53, .ok⟩) := by
    rfl
  rw [again] at eq
  obtain ⟨same, -⟩ := Prod.mk.inj (Option.some.inj eq)
  exact absurd (congrArg (fun r => r.map fun r => r.1.ind1) same) (by decide)

end Zebra.Marcomp
