import Zebra.Dfa.Grammar

/-!
# The lexer reads the tokens

What `lex` finds is what the pattern's characters make; the character sets of classes have the
members the class lists.
-/

namespace Zebra.Dfa

theorem CString.tail {c : Byte} {s : List Byte} (str : CString (c :: s)) : CString s :=
  fun b mem => str b (List.mem_cons_of_mem _ mem)

/-- A character is read, or the string has ended. -/
structure CharRead (ptr : List Byte) (c : Nat) (esc : Bool) (rest : List Byte) : Prop where
  small : c ≤ charsetSize
  str : CString rest
  eos : c = 0 → ptr = [] ∧ esc = false ∧ rest = []

variable {ptr : List Byte}

theorem nextchar_read (str : CString ptr) :
    CharRead ptr (nextchar ptr).1 (nextchar ptr).2.1 (nextchar ptr).2.2 := by
  fun_cases nextchar ptr with
  | case1 => exact ⟨Nat.zero_le _, str, fun _ => ⟨rfl, rfl, rfl⟩⟩
  | case2 => exact ⟨by simp [charsetSize], str.tail, by simp⟩
  | case3 rest | case4 rest => exact ⟨by simp [charsetSize], str.tail, by simp⟩
  | case5 rest | case6 rest | case7 rest => exact ⟨by simp [charsetSize], str.tail.tail, by simp⟩
  | case8 rest | case9 rest => exact ⟨by simp [charsetSize], str.tail.tail, by simp⟩
  | case10 ch rest =>
    obtain ⟨pos, small⟩ := str ch (by simp)
    exact ⟨small, str.tail.tail, fun eq => absurd eq pos.ne'⟩
  | case11 ch rest =>
    obtain ⟨pos, small⟩ := str ch (by simp)
    exact ⟨small, str.tail, fun eq => absurd eq pos.ne'⟩

theorem nextcharSet_read (str : CString ptr) :
    CharRead ptr (nextcharSet ptr).1 (nextcharSet ptr).2.1 (nextcharSet ptr).2.2 := by
  fun_cases nextcharSet ptr with
  | case1 rest => exact ⟨by simp [charsetSize], str.tail, by simp⟩
  | case2 => exact nextchar_read str

variable {c : Nat}

theorem unquote_read (small : c ≤ charsetSize) (str : CString ptr) :
    (unquote c ptr).1 ≤ charsetSize ∧ CString (unquote c ptr).2 := by
  unfold unquote
  split
  · exact ⟨(nextchar_read str).small, (nextchar_read str).str⟩
  · exact ⟨small, str⟩

theorem classItem_read (esc : Bool) (small : c ≤ charsetSize)
    (str : CString ptr) : (classItem c esc ptr).1 ≤ charsetSize ∧
      (classItem c esc ptr).2.1 ≤ charsetSize ∧ CString (classItem c esc ptr).2.2.2 := by
  unfold classItem
  split
  · exact ⟨by simp [charsetSize], small, str⟩
  · obtain ⟨item_small, rest⟩ := unquote_read small str
    exact ⟨item_small, (nextcharSet_read rest).small, (nextcharSet_read rest).str⟩

variable {set : BSet}

theorem mem_foldl_addBSet {cs : List Nat} (small : ∀ c ∈ cs, c ≤ charsetSize) {x : Nat} :
    BSet.Mem (cs.foldl addBSet set) x ↔ BSet.Mem set x ∨ x ∈ cs := by
  induction cs generalizing set with
  | nil => simp
  | cons c cs ih =>
    obtain ⟨small, rest⟩ := List.forall_mem_cons.mp small
    rw [List.foldl_cons, ih rest, mem_addBSet small, List.mem_cons, or_assoc]

theorem mem_addRange {ch0 ch1 x : Nat} (small : ch1 ≤ charsetSize) :
    BSet.Mem (addRange set ch0 ch1) x ↔ BSet.Mem set x ∨ (ch0 < x ∧ x ≤ ch1) := by
  rw [addRange, mem_foldl_addBSet]
  · rw [List.mem_range'_1]
    exact or_congr_right (by omega)
  · intro c mem
    rw [List.mem_range'_1] at mem
    omega

variable {fuel : Nat}

theorem readCharsetLoop_succ {esc : Bool} (more : c ≠ 0) (inside : ¬(esc = false ∧ c = 93)) :
    readCharsetLoop (fuel + 1) set c esc ptr =
      let (item, next, esc1, ptr) := classItem c esc ptr
      if esc1 = false ∧ next = 45 then
        let (last, esc1, ptr) := nextcharSet ptr
        if last = 0 then some (addBSet set item, ptr)
        else if esc1 = false ∧ last = 93 then some (addRange (addBSet set item) item 255, ptr)
        else
          let (next, esc, rest) := nextcharSet (unquote last ptr).2
          readCharsetLoop fuel (addRange (addBSet set item) item (unquote last ptr).1) next esc rest
      else readCharsetLoop fuel (addBSet set item) next esc1 ptr := by
  rw [readCharsetLoop, if_neg more, if_neg inside]
  simp only [classItem, unquote]
  by_cases hyphen : esc = false ∧ c = 45
  · simp only [if_pos hyphen]
  · simp only [if_neg hyphen]

theorem readCharsetLoop_spec {set' : BSet} {esc : Bool}
    {ptr rest : List Byte} (small : c ≤ charsetSize) (str : CString ptr)
    (read : readCharsetLoop fuel set c esc ptr = some (set', rest)) :
    CString rest ∧ ∃ members, ClassFrom c esc ptr members rest ∧
      ∀ x, BSet.Mem set' x ↔ BSet.Mem set x ∨ members x := by
  induction fuel generalizing set c esc ptr with
  | zero => simp [readCharsetLoop] at read
  | succ fuel ih =>
    by_cases eos : c = 0
    · rw [readCharsetLoop, if_pos eos] at read
      obtain ⟨rfl, rfl⟩ := Prod.mk.inj (Option.some.inj read)
      subst eos
      exact ⟨str, _, .eos, by simp⟩
    by_cases close : esc = false ∧ c = 93
    · rw [readCharsetLoop, if_neg eos, if_pos close] at read
      obtain ⟨rfl, rfl⟩ := Prod.mk.inj (Option.some.inj read)
      obtain ⟨rfl, rfl⟩ := close
      exact ⟨str, _, .close, by simp⟩
    rw [readCharsetLoop_succ eos close] at read
    obtain ⟨item_small, next_small, str'⟩ := classItem_read esc small str
    obtain ⟨⟨item, next, esc', ptr'⟩, item_eq⟩ : ∃ read, classItem c esc ptr = read := ⟨_, rfl⟩
    rw [item_eq] at item_small next_small str'
    simp only [item_eq] at read
    by_cases hyphen : esc' = false ∧ next = 45
    · rw [if_pos hyphen] at read
      obtain ⟨rfl, rfl⟩ := hyphen
      have last_read := nextcharSet_read str'
      obtain ⟨⟨last, esc'', ptr''⟩, last_eq⟩ : ∃ read, nextcharSet ptr' = read := ⟨_, rfl⟩
      rw [last_eq] at last_read
      simp only [last_eq] at read
      by_cases last_eos : last = 0
      · rw [if_pos last_eos] at read
        obtain ⟨rfl, rfl⟩ := Prod.mk.inj (Option.some.inj read)
        subst last_eos
        exact ⟨last_read.str, _, .openEnd eos close item_eq last_eq,
          fun x => mem_addBSet item_small⟩
      rw [if_neg last_eos] at read
      by_cases last_close : esc'' = false ∧ last = 93
      · rw [if_pos last_close] at read
        obtain ⟨rfl, rfl⟩ := Prod.mk.inj (Option.some.inj read)
        obtain ⟨rfl, rfl⟩ := last_close
        refine ⟨last_read.str, _, .openRange eos close item_eq last_eq, fun x => ?_⟩
        have whole : BSet.Mem (addRange (addBSet set item) item 255) x ↔ _ :=
          mem_addRange (Nat.le_refl 255)
        rw [whole, mem_addBSet item_small, or_assoc]
        refine or_congr_right ?_
        simp only [charsetSize] at item_small ⊢
        omega
      · rw [if_neg last_close] at read
        obtain ⟨end_small, str'''⟩ := unquote_read last_read.small last_read.str
        have next_read := nextcharSet_read str'''
        obtain ⟨rest_str, members, class_from, mem_iff⟩ := ih next_read.small next_read.str read
        refine ⟨rest_str, _, .range eos close item_eq last_eq last_eos last_close class_from,
          fun x => ?_⟩
        rw [mem_iff, mem_addRange end_small, mem_addBSet item_small, or_assoc, or_assoc]
        have joined : x = item ∨ item < x ∧ x ≤ (unquote last ptr'').1 ↔
            x = item ∨ item ≤ x ∧ x ≤ (unquote last ptr'').1 := by omega
        simp only [← or_assoc, joined]
    · rw [if_neg hyphen] at read
      obtain ⟨rest_str, members, class_from, mem_iff⟩ := ih next_small str' read
      refine ⟨rest_str, _, .single eos close item_eq hyphen class_from, fun x => ?_⟩
      rw [mem_iff, mem_addBSet item_small, or_assoc]

/-- What stays as it is when a token is read. -/
structure Kept (p p' : DfaParse) : Prop where
  position : p'.position = p.position
  rule : p'.rule = p.rule
  anyset : p'.anyset = p.anyset
  charMap : p'.charMap = p.charMap

variable {p p' : DfaParse}

theorem Kept.trans {p'' : DfaParse} (first : Kept p p') (second : Kept p' p'') : Kept p p'' where
  position := second.position.trans first.position
  rule := second.rule.trans first.rule
  anyset := second.anyset.trans first.anyset
  charMap := second.charMap.trans first.charMap

variable {code : Lookahead}

theorem readCharset_spec (str : CString p.exprPtr) (read : readCharset fuel p = some (code, p')) :
    code = .chars ∧ p'.insideString = p.insideString ∧ Kept p p' ∧ CString p'.exprPtr ∧
      ∃ set, Class p.exprPtr set p'.exprPtr ∧ ∀ x, BSet.Mem p'.lookChars x ↔ set x := by
  unfold readCharset at read
  have first_read := nextcharSet_read str
  obtain ⟨⟨c, esc, ptr⟩, first_eq⟩ : ∃ read, nextcharSet p.exprPtr = read := ⟨_, rfl⟩
  rw [first_eq] at first_read
  simp only [first_eq] at read
  have none_yet (x : Nat) : ¬BSet.Mem resBSet x := by simp [BSet.Mem, resBSet]
  by_cases negated : esc = false ∧ c = 94
  · simp only [if_pos negated] at read
    obtain ⟨⟨set, rest⟩, loop, eq⟩ := Option.bind_eq_some_iff.mp read
    obtain ⟨rfl, rfl⟩ := Prod.mk.inj (Option.some.inj eq)
    have next_read := nextcharSet_read first_read.str
    obtain ⟨rest_str, members, class_from, mem_iff⟩ :=
      readCharsetLoop_spec next_read.small next_read.str loop
    obtain ⟨rfl, rfl⟩ := negated
    refine ⟨rfl, rfl, ⟨rfl, rfl, rfl, rfl⟩, rest_str, _, .negated first_eq class_from, fun x => ?_⟩
    change BSet.Mem (comBSet set) x ↔ _
    rw [mem_comBSet, mem_iff, or_iff_right (none_yet x)]
  · simp only [if_neg negated] at read
    obtain ⟨⟨set, rest⟩, loop, eq⟩ := Option.bind_eq_some_iff.mp read
    obtain ⟨rfl, rfl⟩ := Prod.mk.inj (Option.some.inj eq)
    obtain ⟨rest_str, members, class_from, mem_iff⟩ :=
      readCharsetLoop_spec first_read.small first_read.str loop
    refine ⟨rfl, rfl, ⟨rfl, rfl, rfl, rfl⟩, rest_str, _, .plain first_eq negated class_from,
      fun x => ?_⟩
    change BSet.Mem set x ↔ _
    rw [mem_iff, or_iff_right (none_yet x)]

/-- The token that the parser looks at; none at the end. -/
def current (p : DfaParse) : Option Token :=
  match p.lookahead with
  | .eos => none
  | .char => some (.char p.lookCh)
  | .chars => some (.chars (BSet.Mem p.lookChars))
  | code => some (.op code)

theorem Class.congr {ptr rest : List Byte} {set set' : Nat → Prop} (read : Class ptr set rest)
    (same : ∀ x, set' x ↔ set x) : Class ptr set' rest := by
  have eq : set' = set := funext fun x => propext (same x)
  rwa [eq]

theorem mapLChar_spec (p : DfaParse) (str : CString p.exprPtr) (small : p.lookCh ≤ charsetSize) :
    ∃ p', mapLChar p = (.char, p') ∧ p'.insideString = p.insideString ∧ Kept p p' ∧
      CString p'.exprPtr ∧ p'.lookCh = (literal p.lookCh p.exprPtr).1 ∧
      p'.exprPtr = (literal p.lookCh p.exprPtr).2 ∧ p'.lookCh ≤ charsetSize := by
  unfold mapLChar literal
  split
  · next one =>
    cases ptr_eq : p.exprPtr with
    | nil => exact ⟨p, rfl, rfl, ⟨rfl, rfl, rfl, rfl⟩, str, rfl, ptr_eq, small⟩
    | cons ch rest =>
      rw [ptr_eq] at str
      refine ⟨_, rfl, rfl, ⟨rfl, rfl, rfl, rfl⟩, str.tail, ?_⟩
      simp only [true_and]
      exact (str ch (by simp)).2
  · next other =>
    refine ⟨p, rfl, rfl, ⟨rfl, rfl, rfl, rfl⟩, str, ?_⟩
    cases ptr_eq : p.exprPtr with
    | nil => exact ⟨rfl, rfl, small⟩
    | cons ch rest =>
      simp only [true_and]
      exact small

/-- The next token is read, or the pattern ends. -/
structure Lexed (p : DfaParse) (code : Lookahead) (p' : DfaParse) : Prop where
  kept : Kept p p'
  str : CString p'.exprPtr
  small : code = .char → p'.lookCh ≤ charsetSize
  reads : match current { p' with lookahead := code } with
    | none => Ends p.insideString p.exprPtr
    | some tok => Reads p.insideString p.exprPtr tok p'.insideString p'.exprPtr

theorem mapLChar_lexed {q : DfaParse} (kept : Kept p q)
    (str : CString q.exprPtr) (small : q.lookCh ≤ charsetSize)
    (reads : Reads p.insideString p.exprPtr (.char (literal q.lookCh q.exprPtr).1) q.insideString
      (literal q.lookCh q.exprPtr).2)
    (read : some (mapLChar q) = some (code, p')) : Lexed p code p' := by
  obtain ⟨q', eq, inside_eq, kept', str', ch_eq, ptr_eq, small'⟩ := mapLChar_spec q str small
  rw [eq] at read
  obtain ⟨rfl, rfl⟩ := Prod.mk.inj (Option.some.inj read)
  refine ⟨kept.trans kept', str', fun _ => small', ?_⟩
  simp only [current, ch_eq, ptr_eq, inside_eq]
  exact reads

theorem thompsonChars_codes
    (found : thompsonChars.lookup c = some code) : code ≠ .char ∧ code ≠ .chars := by
  have codes : ∀ entry ∈ thompsonChars, entry.2 ≠ .char ∧ entry.2 ≠ .chars := by decide
  obtain ⟨before, behind, eq, -⟩ := List.lookup_eq_some_iff.mp found
  exact codes (c, code) (by simp [eq])

theorem current_op (not_eos : p.lookahead ≠ .eos) (not_char : p.lookahead ≠ .char)
    (not_chars : p.lookahead ≠ .chars) : current p = some (.op p.lookahead) := by
  unfold current
  split
  · next eq => exact absurd eq not_eos
  · next eq => exact absurd eq not_char
  · next eq => exact absurd eq not_chars
  · rfl

theorem lexSub_spec (str : CString p.exprPtr)
    (cmap : p.charMap = thompsonChars) (read : lexSub fuel p = some (code, p')) :
    Lexed p code p' := by
  induction fuel generalizing p with
  | zero => simp [lexSub] at read
  | succ fuel ih =>
    rw [lexSub] at read
    have char_read := nextchar_read str
    obtain ⟨⟨c, esc, ptr⟩, next_eq⟩ : ∃ read, nextchar p.exprPtr = read := ⟨_, rfl⟩
    rw [next_eq] at char_read
    simp only [next_eq] at read
    obtain ⟨c_small, ptr_str, c_eos⟩ := char_read
    have kept (inside : Bool) :
        Kept p { p with lookCh := c, insideString := inside, exprPtr := ptr } := ⟨rfl, rfl,
          rfl, rfl⟩
    by_cases eos : c = 0
    · rw [if_pos eos] at read
      obtain ⟨rfl, rfl⟩ := Prod.mk.inj (Option.some.inj read)
      refine ⟨⟨rfl, rfl, rfl, rfl⟩, ptr_str, nofun, ?_⟩
      simp only [current]
      rw [(c_eos eos).1]
      exact .eos
    rw [if_neg eos] at read
    by_cases quote : c = 34
    · rw [if_pos quote] at read
      subst quote
      cases esc with
      | true =>
        exact mapLChar_lexed (kept p.insideString) ptr_str c_small
          (.char next_eq eos (.inl rfl)) read
      | false =>
        rw [if_neg Bool.false_ne_true] at read
        have lexed := ih ptr_str ((kept (!p.insideString)).charMap.trans cmap) read
        have reads := lexed.reads
        refine ⟨(kept (!p.insideString)).trans lexed.kept, lexed.str, lexed.small, ?_⟩
        cases tok_eq : current { p' with lookahead := code } with
        | none =>
          rw [tok_eq] at reads
          exact .quote next_eq reads
        | some tok =>
          rw [tok_eq] at reads
          exact .quote next_eq reads
    rw [if_neg quote] at read
    by_cases quoted : esc = true ∨ p.insideString = true
    · rw [if_pos quoted] at read
      exact mapLChar_lexed (kept p.insideString) ptr_str c_small
        (.char next_eq eos (quoted.imp_right fun inside => ⟨inside, quote⟩)) read
    rw [if_neg quoted] at read
    obtain ⟨unescaped, outside⟩ := not_or.mp quoted
    rw [Bool.not_eq_true] at unescaped outside
    subst unescaped
    by_cases bracket : c = 91
    · rw [if_pos bracket] at read
      subst bracket
      obtain ⟨rfl, inside_eq, kept', str', set, class_of, mem_iff⟩ := readCharset_spec ptr_str read
      refine ⟨(kept p.insideString).trans kept', str', nofun, ?_⟩
      simp only [current, inside_eq, outside]
      exact .chars next_eq (class_of.congr mem_iff)
    rw [if_neg bracket] at read
    cases found : p.charMap.lookup c with
    | none =>
      rw [found] at read
      rw [cmap] at found
      refine mapLChar_lexed (kept p.insideString) ptr_str c_small ?_ read
      simp only [outside]
      exact .plain next_eq eos quote bracket found
    | some op =>
      rw [found] at read
      rw [cmap] at found
      obtain ⟨not_char, not_chars⟩ := thompsonChars_codes found
      by_cases op_eos : op = .eos
      · subst op_eos
        obtain ⟨rfl, rfl⟩ := Prod.mk.inj (Option.some.inj read)
        refine ⟨⟨rfl, rfl, rfl, rfl⟩, str, nofun, ?_⟩
        simp only [current, outside]
        exact .blank next_eq quote bracket found
      · have reads : Reads false p.exprPtr (.op op) false ptr :=
          .op next_eq eos quote bracket found op_eos
        have read' : some (op, { p with lookCh := c, exprPtr := ptr }) = some (code, p') := by
          cases op <;> first | exact absurd rfl op_eos | exact read
        obtain ⟨rfl, rfl⟩ := Prod.mk.inj (Option.some.inj read')
        refine ⟨kept p.insideString, ptr_str, fun eq => absurd eq not_char, ?_⟩
        rw [current_op op_eos not_char not_chars]
        simp only [outside]
        exact reads

/-- The tokens that the parser has in front of it, the one it looks at included. -/
def Upcoming (p : DfaParse) (toks : List Token) : Prop :=
  match current p with
  | none => toks = []
  | some tok => ∃ rest, toks = tok :: rest ∧ Tokens p.insideString p.exprPtr rest

/-- A state of the parser within a pattern. -/
structure Scanning (p : DfaParse) : Prop where
  str : CString p.exprPtr
  cmap : p.charMap = thompsonChars
  small : p.lookahead = .char → p.lookCh ≤ charsetSize

/-- `lex` takes the next token. -/
theorem lex_spec (str : CString p.exprPtr)
    (cmap : p.charMap = thompsonChars) (read : lex fuel p = some p') :
    Kept p p' ∧ Scanning p' ∧
      ∀ toks, Upcoming p' toks → Tokens p.insideString p.exprPtr toks := by
  obtain ⟨⟨code, q⟩, read_sub, eq⟩ := Option.bind_eq_some_iff.mp read
  obtain rfl := Option.some.inj eq
  obtain ⟨kept, str', small, reads⟩ := lexSub_spec str cmap read_sub
  refine ⟨⟨kept.position, kept.rule, kept.anyset, kept.charMap⟩,
    ⟨str', kept.charMap.trans cmap, small⟩, fun toks upcoming => ?_⟩
  unfold Upcoming at upcoming
  cases tok_eq : current { q with lookahead := code } with
  | none =>
    simp only [tok_eq] at upcoming reads
    subst upcoming
    exact .eos reads
  | some tok =>
    simp only [tok_eq] at upcoming reads
    obtain ⟨rest, rfl, tokens⟩ := upcoming
    exact .cons reads tokens

end Zebra.Dfa
