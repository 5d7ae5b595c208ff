import Zebra.Dfa.LexSpec
import Zebra.Dfa.Mapped

/-!
# The parser always comes to an end

With every token the parser moves on in the pattern, so it comes to an end; and no assertion fails
as long as the map sends the characters it meets in classes to characters below 128.  One that it
sends above is read as a negative number, and is no member a set can have.
-/

namespace Zebra.Dfa

open List Mapped

def Outcome.Gives {α : Type} (run : Outcome α) (post : α → Prop) : Prop :=
  ∃ a, run = .done a ∧ post a

namespace Outcome

variable {α β : Type} {post post' : α → Prop}

theorem gives_done {a : α} (holds : post a) : (Outcome.done a).Gives post := ⟨a, rfl, holds⟩

theorem Gives.imp {run : Outcome α} (gives : run.Gives post) (imp : ∀ a, post a → post' a) :
    run.Gives post' := by
  obtain ⟨a, run_eq, holds⟩ := gives
  exact ⟨a, run_eq, imp a holds⟩

theorem Gives.bind {run : Outcome α} {next : α → Outcome β} {last : β → Prop}
    (gives : run.Gives post) (step : ∀ a, post a → (next a).Gives last) :
    (run >>= next).Gives last := by
  obtain ⟨a, rfl, holds⟩ := gives
  exact step a holds

end Outcome

namespace Mapped

open Outcome

variable {cmap : Option CMap}

theorem nextchar_suffix (ptr : List Byte) : (nextchar ptr).2.2 <:+ ptr := by
  fun_cases nextchar ptr with
  | case1 => exact suffix_rfl
  | case2 => exact suffix_cons _ _
  | case3 | case4 => exact suffix_cons _ _
  | case11 => exact suffix_cons _ _
  | _ => exact (suffix_cons _ _).trans (suffix_cons _ _)

variable {ptr : List Byte}

theorem nextchar_length (more : ptr ≠ []) : (nextchar ptr).2.2.length < ptr.length := by
  fun_cases nextchar ptr with
  | case1 => exact absurd rfl more
  | _ =>
    simp only [length_cons]
    omega

theorem nextcharSet_suffix (ptr : List Byte) : (nextcharSet ptr).2.2 <:+ ptr := by
  fun_cases nextcharSet ptr with
  | case1 => exact suffix_cons _ _
  | case2 => exact nextchar_suffix _

theorem nextcharSet_length (more : ptr ≠ []) : (nextcharSet ptr).2.2.length < ptr.length := by
  fun_cases nextcharSet ptr with
  | case1 => simp
  | case2 => exact nextchar_length more

theorem CString.suffix {ptr ptr' : List Byte} (suffix : ptr' <:+ ptr) (str : CString ptr) :
    CString ptr' := fun b mem => str b (suffix.subset mem)

def escaped : List Byte := [32, 10, 9, 13, 12, 92]

/-- What is read is a character of the string or what an escape stands for. -/
theorem nextchar_char (ptr : List Byte) :
    (nextchar ptr).1 = 0 ∨ (nextchar ptr).1 ∈ ptr ++ escaped := by
  fun_cases nextchar ptr with
  | case1 => exact .inl rfl
  | case10 | case11 => exact .inr (by simp)
  | _ => exact .inr (by simp [escaped])

theorem nextcharSet_char (ptr : List Byte) :
    (nextcharSet ptr).1 = 0 ∨ (nextcharSet ptr).1 ∈ ptr ++ escaped := by
  fun_cases nextcharSet ptr with
  | case1 => exact .inr (by simp)
  | case2 => exact nextchar_char _

/-- The map keeps the characters of a pattern, and those of its escapes, below 128. -/
def Tame (cmap : Option CMap) (pattern : List Byte) : Prop :=
  ∀ ch ∈ pattern ++ escaped, 2 ≤ ch → 0 ≤ mapChar cmap ch

theorem Tame.suffix {ptr ptr' : List Byte} (suffix : ptr' <:+ ptr) (tame : Tame cmap ptr) :
    Tame cmap ptr' := fun ch mem =>
  tame ch (mem_append.mpr ((mem_append.mp mem).imp_left fun mem => suffix.subset mem))

/-- A character that may stand in a class. -/
structure Fine (cmap : Option CMap) (ch : Nat) : Prop where
  small : ch ≤ charsetSize
  tame : 2 ≤ ch → 0 ≤ mapChar cmap ch

theorem fine_nextcharSet (str : CString ptr) (tame : Tame cmap ptr) :
    Fine cmap (nextcharSet ptr).1 where
  small := (nextcharSet_read str).small
  tame two := (nextcharSet_char ptr).elim (fun zero => by omega) fun mem => tame _ mem two

theorem signedChar_le {b : Nat} (small : b ≤ charsetSize) : signedChar b ≤ charsetSize := by
  rw [signedChar]
  split
  · exact Int.ofNat_le.mpr small
  · omega

theorem headD_map_le (cmap : CMap) {ch : Nat} (small : ch ≤ charsetSize) :
    (cmap.map [ch]).1.headD 0 ≤ charsetSize := by
  cases target : (cmap.map [ch]).1 with
  | nil => exact Nat.zero_le _
  | cons b rest =>
    refine cmap.bytes [ch] (fun c mem => ?_) b (target ▸ mem_cons_self)
    rwa [mem_singleton.mp mem]

theorem mapChar_le {ch : Nat} (small : ch ≤ charsetSize) : mapChar cmap ch ≤ charsetSize := by
  rw [mapChar.eq_def]
  split
  · next cmap => exact signedChar_le (headD_map_le cmap small)
  · exact Int.ofNat_le.mpr small

theorem addBSet_gives {dst : BSet} {member : Int} (low : 0 ≤ member)
    (small : member ≤ charsetSize) :
    (addBSet dst member).Gives fun _ => True := by
  rw [addBSet, if_pos ⟨low, small⟩]
  exact gives_done trivial

theorem addRange_gives {dst : BSet} {i : Int} {count : Nat} (low : 0 ≤ i)
    (small : i + count ≤ charsetSize) : (addRange dst i count).Gives fun _ => True := by
  induction count generalizing dst i with
  | zero => exact gives_done trivial
  | succ count induction =>
    rw [addRange]
    push_cast at small
    exact (addBSet_gives (by omega) (by omega)).bind fun dst _ =>
      induction (by omega) (by omega)

/-- A character of a class is a member that a set can have, and no more than a character. -/
theorem classChar_spec {ch : Nat} (fine : Fine cmap ch) (ne : ch ≠ 0)
    (str : CString ptr) : (classChar cmap ch ptr).2 <:+ ptr ∧ 0 ≤ (classChar cmap ch ptr).1 ∧
      (classChar cmap ch ptr).1 ≤ charsetSize := by
  rw [classChar]
  split
  · exact ⟨nextchar_suffix ptr, Int.natCast_nonneg _,
      Int.ofNat_le.mpr (nextchar_read str).small⟩
  · exact ⟨suffix_rfl, fine.tame (by omega), mapChar_le fine.small⟩

/-- The characters left to read by the loop: the last met one counts, too. -/
def charsLeft (ch : Nat) (ptr : List Byte) : Nat := ptr.length + if ch = 0 then 0 else 1

theorem charsLeft_nextcharSet (str : CString ptr) :
    charsLeft (nextcharSet ptr).1 (nextcharSet ptr).2.2 ≤ ptr.length := by
  rw [charsLeft]
  rcases ptr.eq_nil_or_concat' with rfl | ⟨_, _, concat⟩
  · decide
  · have more : ptr ≠ [] := concat ▸ concat_ne_nil _ _
    have shorter := nextcharSet_length more
    split <;> omega

theorem classItem_spec {ch0 : Nat} (esc0 : Bool) (fine : Fine cmap ch0)
    (ne : ch0 ≠ 0) (str : CString ptr) (tame : Tame cmap ptr) :
    let item : Int × Nat × Bool × List Byte :=
      if esc0 = false ∧ ch0 = 45 then ((1 : Int), ch0, esc0, ptr)
      else ((classChar cmap ch0 ptr).1, nextcharSet (classChar cmap ch0 ptr).2)
    item.2.2.2 <:+ ptr ∧ 0 ≤ item.1 ∧ item.1 ≤ charsetSize ∧ Fine cmap item.2.1 ∧
      (¬ (item.2.2.1 = false ∧ item.2.1 = 45) →
        charsLeft item.2.1 item.2.2.2 ≤ ptr.length) := by
  dsimp only
  split
  · next hyphen =>
      exact ⟨suffix_rfl, zero_le_one, Int.ofNat_le.mpr (by decide), fine,
        fun no => absurd hyphen no⟩
  · obtain ⟨suffix, low, small⟩ := classChar_spec fine ne str
    have str1 := CString.suffix suffix str
    exact ⟨(nextcharSet_suffix _).trans suffix, low, small,
      fine_nextcharSet str1 (tame.suffix suffix), fun _ =>
      (charsLeft_nextcharSet str1).trans suffix.length_le⟩

variable {fuel : Nat}

theorem readCharsetLoop_gives {set : BSet} {ch0 : Nat} {esc0 : Bool}
    (enough : charsLeft ch0 ptr < fuel) (fine : Fine cmap ch0) (str : CString ptr)
    (tame : Tame cmap ptr) :
    (readCharsetLoop cmap fuel set ch0 esc0 ptr).Gives fun r => r.2 <:+ ptr := by
  induction fuel generalizing set ch0 esc0 ptr with
  | zero => omega
  | succ fuel induction =>
    rw [readCharsetLoop]
    split
    · exact gives_done suffix_rfl
    · next ne =>
        split
        · exact gives_done suffix_rfl
        · have item := classItem_spec esc0 fine ne str tame
          dsimp only at item
          obtain ⟨⟨ch0, ch1, esc1, ptr1⟩, item_def⟩ : ∃ item : Int × Nat × Bool × List Byte,
              (if esc0 = false ∧ ch0 = 45 then ((1 : Int), ch0, esc0, ptr)
                else ((classChar cmap ch0 ptr).1, nextcharSet (classChar cmap ch0 ptr).2)) =
              item := ⟨_, rfl⟩
          rw [item_def] at item
          obtain ⟨suffix, low, small, fine1, fewer⟩ := item
          dsimp only at suffix low small fine1 fewer
          have left : ptr.length < fuel := by
            rw [charsLeft, if_neg ne] at enough
            omega
          have str1 := CString.suffix suffix str
          have tame1 := tame.suffix suffix
          simp only [item_def]
          refine (addBSet_gives low small).bind fun set _ => ?_
          split
          · have fine2 := fine_nextcharSet str1 tame1
            have suffix2 := (nextcharSet_suffix ptr1).trans suffix
            have str2 := CString.suffix suffix2 str
            split
            · exact gives_done suffix2
            · next ne2 =>
                split
                · exact (addRange_gives low (by rw [charsetSize] at *; omega)).bind fun _ _ =>
                    gives_done suffix2
                · obtain ⟨suffix3, -, small3⟩ := classChar_spec fine2 ne2 str2
                  have suffix3 := suffix3.trans suffix2
                  have str3 := CString.suffix suffix3 str
                  have tame3 := tame.suffix suffix3
                  have within (c : Int) (le : c ≤ charsetSize) :
                      ch0 + ((c - ch0).toNat : Int) ≤ charsetSize := by
                    omega
                  refine (addRange_gives low (within _ small3)).bind fun _ _ => ?_
                  refine (induction ?_ (fine_nextcharSet str3 tame3) ?_ ?_).imp
                    fun r suffix4 => ?_
                  · exact (charsLeft_nextcharSet str3).trans_lt (suffix3.length_le.trans_lt left)
                  · exact CString.suffix (nextcharSet_suffix _) str3
                  · exact tame3.suffix (nextcharSet_suffix _)
                  · exact (suffix4.trans (nextcharSet_suffix _)).trans suffix3
          · next no =>
              exact (induction ((fewer no).trans_lt left) fine1 str1 tame1).imp fun r suffix4 =>
                suffix4.trans suffix

variable {p : DfaParse}

theorem readCharset_gives (enough : p.exprPtr.length + 1 < fuel)
    (str : CString p.exprPtr) (tame : Tame cmap p.exprPtr) :
    (readCharset cmap fuel p).Gives fun r => r.1 = .chars ∧ r.2.exprPtr <:+ p.exprPtr := by
  have left {ch : Nat} {ptr : List Byte} (suffix : ptr <:+ p.exprPtr) :
      charsLeft ch ptr < fuel := by
    have le := suffix.length_le
    rw [charsLeft]
    split <;> omega
  have suffix := nextcharSet_suffix p.exprPtr
  have str1 := CString.suffix suffix str
  rw [readCharset]
  dsimp only
  split
  · have suffix2 := (nextcharSet_suffix (nextcharSet p.exprPtr).2.2).trans suffix
    refine (readCharsetLoop_gives (left suffix2) (fine_nextcharSet str1 (tame.suffix suffix))
      (CString.suffix suffix2 str) (tame.suffix suffix2)).bind fun r rest => ?_
    exact gives_done ⟨rfl, rest.trans suffix2⟩
  · refine (readCharsetLoop_gives (left suffix) (fine_nextcharSet str tame) str1
      (tame.suffix suffix)).bind fun r rest => ?_
    exact gives_done ⟨rfl, rest.trans suffix⟩

theorem cp0_suffix (before ptr : List Byte) :
    before.drop (before.length - (ptr.length + 1)) <:+ before := drop_suffix _ _

theorem mapLChar_spec (cmap : Option CMap) {cp0 before : List Byte} (suffix : cp0 <:+ before)
    (some : cp0 ≠ []) (moved : p.exprPtr <:+ before ∧ p.exprPtr.length < before.length) :
    (mapLChar cmap cp0 p).2.exprPtr <:+ before ∧
      (mapLChar cmap cp0 p).2.exprPtr.length < before.length := by
  rw [mapLChar.eq_def]
  split
  · next ch rest =>
      have after : rest <:+ 1 :: ch :: rest := (suffix_cons _ _).trans (suffix_cons _ _)
      have size := suffix.length_le
      rw [length_cons, length_cons] at size
      exact ⟨after.trans suffix, by dsimp only; omega⟩
  · exact moved
  · next cmap _ =>
      obtain ⟨one, -⟩ := cmap.advances cp0 some
      have size := suffix.length_le
      have more : 0 < cp0.length := length_pos_of_ne_nil some
      refine ⟨(drop_suffix _ _).trans suffix, ?_⟩
      dsimp only
      rw [length_drop]
      omega

/-- A token is read, or the pattern has ended, and the pointer has moved on. -/
structure Moved (p : DfaParse) (code : Lookahead) (p' : DfaParse) : Prop where
  suffix : p'.exprPtr <:+ p.exprPtr
  further : code ≠ .eos → p'.exprPtr.length < p.exprPtr.length

theorem lexSub_gives (enough : p.exprPtr.length + 1 < fuel)
    (str : CString p.exprPtr) (tame : Tame cmap p.exprPtr) :
    (lexSub cmap fuel p).Gives fun r => Moved p r.1 r.2 := by
  induction fuel generalizing p with
  | zero => omega
  | succ fuel induction =>
    have suffix := nextchar_suffix p.exprPtr
    rw [lexSub]
    dsimp only
    split
    · exact gives_done ⟨suffix, fun ne => absurd rfl ne⟩
    · next ne =>
        have more : p.exprPtr ≠ [] := by
          intro none
          rw [none] at ne
          exact ne rfl
        have shorter := nextchar_length more
        have cp0_some : p.exprPtr.drop
            (p.exprPtr.length - ((nextchar p.exprPtr).2.2.length + 1)) ≠ [] := by
          rw [Ne, drop_eq_nil_iff]
          omega
        have literal (q : DfaParse) (ptr : q.exprPtr = (nextchar p.exprPtr).2.2) :
            Moved p (mapLChar cmap (p.exprPtr.drop
              (p.exprPtr.length - ((nextchar p.exprPtr).2.2.length + 1))) q).1
              (mapLChar cmap (p.exprPtr.drop
                (p.exprPtr.length - ((nextchar p.exprPtr).2.2.length + 1))) q).2 := by
          obtain ⟨moved, less⟩ := mapLChar_spec cmap (cp0_suffix p.exprPtr _) cp0_some
            (p := q) ⟨ptr ▸ suffix, ptr ▸ shorter⟩
          exact ⟨moved, fun _ => less⟩
        have str1 := CString.suffix suffix str
        have tame1 := tame.suffix suffix
        have enough1 : (nextchar p.exprPtr).2.2.length + 1 < fuel := by omega
        split
        · split
          · exact gives_done (literal _ rfl)
          · refine (induction enough1 str1 tame1).imp fun r moved => ?_
            exact ⟨moved.suffix.trans suffix, fun ne => (moved.further ne).trans shorter⟩
        · split
          · exact gives_done (literal _ rfl)
          · split
            · refine (readCharset_gives enough1 str1 tame1).imp fun r moved => ?_
              exact ⟨moved.2.trans suffix, fun _ => moved.2.length_le.trans_lt shorter⟩
            · split
              · exact gives_done ⟨suffix_rfl, fun ne => absurd rfl ne⟩
              · exact gives_done ⟨suffix, fun _ => shorter⟩
              · exact gives_done (literal _ rfl)

/-- What is left for the parser: the token it looks at counts, too. -/
def toRead (p : DfaParse) : Nat := p.exprPtr.length + if p.lookahead = .eos then 0 else 1

theorem lex_gives (enough : p.exprPtr.length + 1 < fuel)
    (str : CString p.exprPtr) (tame : Tame cmap p.exprPtr) :
    (lex cmap fuel p).Gives fun q => q.exprPtr <:+ p.exprPtr ∧ toRead q ≤ p.exprPtr.length := by
  refine (lexSub_gives enough str tame).bind fun r moved => gives_done ⟨moved.suffix, ?_⟩
  rw [toRead]
  dsimp only
  split
  · exact moved.suffix.length_le
  · next ne => exact moved.further ne

/-- A place in a pattern that the map keeps tame. -/
structure Tamed (cmap : Option CMap) (p : DfaParse) : Prop where
  str : CString p.exprPtr
  tame : Tame cmap p.exprPtr

theorem Tamed.suffix {p q : DfaParse} (tamed : Tamed cmap p) (suffix : q.exprPtr <:+ p.exprPtr) :
    Tamed cmap q :=
  ⟨CString.suffix suffix tamed.str, tamed.tame.suffix suffix⟩

/-- The parser has not gone back. -/
structure Onward (p q : DfaParse) : Prop where
  suffix : q.exprPtr <:+ p.exprPtr
  le : toRead q ≤ toRead p

/-- The parser has read a token. -/
structure Further (p q : DfaParse) : Prop where
  suffix : q.exprPtr <:+ p.exprPtr
  lt : toRead q < toRead p

theorem Onward.refl (p : DfaParse) : Onward p p := ⟨suffix_rfl, le_rfl⟩

theorem Further.onward {p q : DfaParse} (further : Further p q) : Onward p q :=
  ⟨further.suffix, further.lt.le⟩

theorem Further.trans {p q r : DfaParse} (first : Further p q) (second : Onward q r) :
    Further p r := ⟨second.suffix.trans first.suffix, second.le.trans_lt first.lt⟩

theorem Onward.trans {p q r : DfaParse} (first : Onward p q) (second : Onward q r) :
    Onward p r := ⟨second.suffix.trans first.suffix, second.le.trans first.le⟩

/-- From a token on, a call of `lex` reads further; other fields do not matter. -/
theorem lex_further {p q : DfaParse} (tamed : Tamed cmap p)
    (enough : toRead p + 1 < fuel) (token : p.lookahead ≠ .eos) (same : q.exprPtr = p.exprPtr) :
    (lex cmap fuel q).Gives (Further p) := by
  have size : toRead p = p.exprPtr.length + 1 := by rw [toRead, if_neg token]
  refine (lex_gives (by rw [same]; omega) (same ▸ tamed.str) (same ▸ tamed.tame)).imp
    fun r moved => ?_
  rw [same] at moved
  exact ⟨moved.1, by omega⟩

def Parses (p : DfaParse) (run : Outcome (Option Tnode × DfaParse)) : Prop :=
  run.Gives fun r => Onward p r.2 ∧ (r.1.isSome = true → Further p r.2)

def Continues (p : DfaParse) (run : Outcome (Option Tnode × DfaParse)) : Prop :=
  run.Gives fun r => Onward p r.2

theorem parses_some {p q : DfaParse} {t : Option Tnode} (further : Further p q) :
    Parses p (.done (t, q)) := gives_done ⟨further.onward, fun _ => further⟩

theorem parses_none {p q : DfaParse} (onward : Onward p q) : Parses p (.done (none, q)) :=
  gives_done ⟨onward, fun some => absurd some Bool.false_ne_true⟩

/-- The parts of the parser come to an end, with as much fuel as this. -/
structure Ends (cmap : Option CMap) (n : Nat) : Prop where
  expr1 : ∀ {p fuel}, Tamed cmap p → toRead p ≤ n → 4 * n + 8 ≤ fuel →
    Parses p (Mapped.expr1 cmap fuel p)
  alternatives : ∀ {p fuel} (t1), Tamed cmap p → toRead p ≤ n → 4 * n + 8 ≤ fuel →
    Continues p (Mapped.alternatives cmap fuel t1 p)
  expr2 : ∀ {p fuel}, Tamed cmap p → toRead p ≤ n → 4 * n + 7 ≤ fuel →
    Parses p (Mapped.expr2 cmap fuel p)
  factors : ∀ {p fuel} (t1), Tamed cmap p → toRead p ≤ n → 4 * n + 7 ≤ fuel →
    Continues p (Mapped.factors cmap fuel t1 p)

theorem mkCset_eq (charset : BSet) (p : DfaParse) :
    ∃ t1 position, mkCset charset p = (t1, { p with position }) := ⟨_, _, rfl⟩

section

variable {n : Nat} (less : ∀ m < n, Ends cmap m) {p : DfaParse} {fuel : Nat}
  (tamed : Tamed cmap p) (size : toRead p ≤ n)

include less tamed size

theorem expr4_parses (enough : 4 * n + 5 ≤ fuel) : Parses p (expr4 cmap fuel p) := by
  obtain ⟨fuel, rfl⟩ : ∃ k, fuel = k + 1 := ⟨fuel - 1, by omega⟩
  have lexes {q : DfaParse} (same : q.exprPtr = p.exprPtr) (token : p.lookahead ≠ .eos) :
      (lex cmap fuel q).Gives (Further p) := lex_further tamed (by omega) token same
  rw [expr4]
  split
  · next lp =>
      refine (lexes rfl (by rw [lp]; decide)).bind fun q further => ?_
      have smaller := further.lt.trans_le size
      refine ((less (n - 1) (by omega)).expr1 (tamed.suffix further.suffix) (by omega)
        (by omega)).bind fun r inner => ?_
      obtain ⟨t1, r⟩ := r
      have beyond := further.trans inner.1
      cases t1 with
      | none => exact parses_none beyond.onward
      | some t1 =>
        dsimp only
        split
        · next rp =>
            refine (lex_further (tamed.suffix beyond.suffix) (by have := beyond.lt; omega)
              (by rw [rp]; decide) rfl).bind fun q' closed => ?_
            exact parses_some (beyond.trans closed.onward)
        · exact parses_none beyond.onward
  · next char =>
      refine Gives.bind (lexes ?_ (by rw [char]; decide)) fun q further => parses_some further
      rfl
  · next chars =>
      obtain ⟨t1, position, cset⟩ := mkCset_eq p.lookChars p
      rw [cset]
      refine Gives.bind (lexes ?_ (by rw [chars]; decide)) fun q further => parses_some further
      rfl
  · next any =>
      obtain ⟨t1, position, cset⟩ := mkCset_eq p.anyset p
      rw [cset]
      refine Gives.bind (lexes ?_ (by rw [any]; decide)) fun q further => parses_some further
      rfl
  · next anyz =>
      obtain ⟨t1, position, cset⟩ := mkCset_eq p.anyset p
      rw [cset]
      refine Gives.bind (lexes ?_ (by rw [anyz]; decide)) fun q further => parses_some further
      rfl
  · next wild =>
      obtain ⟨t1, position, cset⟩ := mkCset_eq p.anyset p
      rw [cset]
      refine Gives.bind (lexes ?_ (by rw [wild]; decide)) fun q further =>
        parses_none further.onward
      rfl
  · exact parses_none (Onward.refl p)

theorem expr3_parses (enough : 4 * n + 6 ≤ fuel) : Parses p (expr3 cmap fuel p) := by
  obtain ⟨fuel, rfl⟩ : ∃ k, fuel = k + 1 := ⟨fuel - 1, by omega⟩
  rw [expr3]
  refine (expr4_parses less tamed size (by omega)).bind fun r inner => ?_
  obtain ⟨t1, q⟩ := r
  cases t1 with
  | none => exact parses_none inner.1
  | some t1 =>
    have further : Further p q := inner.2 rfl
    have lexes (token : q.lookahead ≠ .eos) : (lex cmap fuel q).Gives (Further q) :=
      lex_further (tamed.suffix further.suffix) (by have := further.lt; omega) token rfl
    dsimp only
    split
    · next clos0 =>
        exact (lexes (by rw [clos0]; decide)).bind fun q' more =>
          parses_some (further.trans more.onward)
    · next clos1 =>
        exact (lexes (by rw [clos1]; decide)).bind fun q' more =>
          parses_some (further.trans more.onward)
    · next quest =>
        exact (lexes (by rw [quest]; decide)).bind fun q' more =>
          parses_some (further.trans more.onward)
    · exact parses_some further

theorem factors_continues (t1 : Tnode) (enough : 4 * n + 7 ≤ fuel) :
    Continues p (factors cmap fuel t1 p) := by
  obtain ⟨fuel, rfl⟩ : ∃ k, fuel = k + 1 := ⟨fuel - 1, by omega⟩
  rw [factors]
  split
  · refine (expr3_parses less tamed size (by omega)).bind fun r inner => ?_
    obtain ⟨t2, q⟩ := r
    cases t2 with
    | none => exact gives_done inner.1
    | some t2 =>
      have further : Further p q := inner.2 rfl
      have smaller := further.lt.trans_le size
      refine ((less (n - 1) (by omega)).factors _ (tamed.suffix further.suffix) (by omega)
        (by omega)).imp fun r more => ?_
      exact further.onward.trans more
  · exact gives_done (Onward.refl p)

theorem expr2_parses (enough : 4 * n + 7 ≤ fuel) : Parses p (expr2 cmap fuel p) := by
  obtain ⟨fuel, rfl⟩ : ∃ k, fuel = k + 1 := ⟨fuel - 1, by omega⟩
  rw [expr2]
  refine (expr3_parses less tamed size (by omega)).bind fun r inner => ?_
  obtain ⟨t1, q⟩ := r
  cases t1 with
  | none => exact parses_none inner.1
  | some t1 =>
    have further : Further p q := inner.2 rfl
    have smaller := further.lt.trans_le size
    refine ((less (n - 1) (by omega)).factors _ (tamed.suffix further.suffix) (by omega)
      (by omega)).imp fun r more => ?_
    exact ⟨further.onward.trans more, fun _ => further.trans more⟩

theorem alternatives_continues (t1 : Tnode) (enough : 4 * n + 8 ≤ fuel) :
    Continues p (alternatives cmap fuel t1 p) := by
  obtain ⟨fuel, rfl⟩ : ∃ k, fuel = k + 1 := ⟨fuel - 1, by omega⟩
  rw [alternatives]
  split
  · next alt =>
      refine (lex_further tamed (by omega) (by rw [alt]; decide) rfl).bind fun q further => ?_
      have smaller := further.lt.trans_le size
      have ends := less (n - 1) (by omega)
      refine (ends.expr2 (tamed.suffix further.suffix) (by omega) (by omega)).bind
        fun r inner => ?_
      obtain ⟨t2, r⟩ := r
      have beyond := further.trans inner.1
      cases t2 with
      | none => exact gives_done beyond.onward
      | some t2 =>
        have smaller' := beyond.lt.trans_le size
        refine (ends.alternatives _ (tamed.suffix beyond.suffix) (by omega) (by omega)).imp
          fun r more => ?_
        exact beyond.onward.trans more
  · exact gives_done (Onward.refl p)

theorem expr1_parses (enough : 4 * n + 8 ≤ fuel) : Parses p (expr1 cmap fuel p) := by
  obtain ⟨fuel, rfl⟩ : ∃ k, fuel = k + 1 := ⟨fuel - 1, by omega⟩
  rw [expr1]
  refine (expr2_parses less tamed size (by omega)).bind fun r inner => ?_
  obtain ⟨t1, q⟩ := r
  cases t1 with
  | none => exact parses_none inner.1
  | some t1 =>
    have further : Further p q := inner.2 rfl
    have smaller := further.lt.trans_le size
    refine ((less (n - 1) (by omega)).alternatives _ (tamed.suffix further.suffix) (by omega)
      (by omega)).imp fun r more => ?_
    exact ⟨further.onward.trans more, fun _ => further.trans more⟩

end

theorem ends (n : Nat) : Ends cmap n := by
  induction n using Nat.strong_induction_on with
  | _ n less =>
    exact {
      expr1 := fun tamed size enough => expr1_parses less tamed size enough
      alternatives := fun t1 tamed size enough => alternatives_continues less tamed size t1 enough
      expr2 := fun tamed size enough => expr2_parses less tamed size enough
      factors := fun t1 tamed size enough => factors_continues less tamed size t1 enough }

theorem parseBody_gives {n fuel : Nat} (tamed : Tamed cmap p) (size : toRead p ≤ n)
    (enough : 4 * n + 8 ≤ fuel) : (parseBody cmap fuel p).Gives fun _ => True := by
  rw [parseBody]
  split
  · next anchor =>
      have lexed := lex_further (q := { p with position := p.position + 1 }) tamed
        (show toRead p + 1 < fuel by omega) (by rw [anchor]; decide) rfl
      exact lexed.bind fun q _ => gives_done trivial
  · refine ((ends n).expr1 tamed size enough).bind fun r inner => ?_
    obtain ⟨t1, q⟩ := r
    cases t1 with
    | none => exact gives_done trivial
    | some t1 =>
      have further : Further p q := inner.2 rfl
      dsimp only
      split
      · next anchor =>
          have lexed := lex_further (q := { q with position := q.position + 1 })
            (tamed.suffix further.suffix)
            (show toRead q + 1 < fuel by have := further.lt; omega) (by rw [anchor]; decide) rfl
          exact lexed.bind fun q' _ => gives_done trivial
      · exact gives_done trivial

theorem parseRule_gives {n fuel : Nat} {flag : Bool} (tamed : Tamed cmap p)
    (size : toRead p ≤ n) (enough : 4 * n + 8 ≤ fuel) :
    (parseRule cmap fuel flag p).Gives fun _ => True := by
  refine (parseBody_gives tamed size enough).bind fun r _ => ?_
  obtain ⟨t1, q⟩ := r
  cases t1 with
  | none => exact gives_done trivial
  | some t1 =>
    dsimp only
    split
    · exact gives_done trivial
    · exact gives_done trivial

theorem dfaParse_gives (p : DfaParse) (root : Option Tnode) {pattern : List Byte}
    (str : CString pattern) (tame : Tame cmap pattern) (enough : 4 * pattern.length + 8 ≤ fuel) :
    (dfaParse cmap fuel p root pattern).Gives fun _ => True := by
  have parsed : (doParse cmap fuel p pattern).Gives fun _ => True := by
    refine (lex_gives (p := { p with exprPtr := pattern, insideString := false })
      (show pattern.length + 1 < fuel by omega) str tame).bind fun q first => ?_
    have tamed : Tamed cmap q := ⟨CString.suffix first.1 str, tame.suffix first.1⟩
    have size : toRead q ≤ pattern.length := first.2
    split
    · next anchor =>
        refine (lex_further tamed (by omega) (by rw [anchor]; decide) rfl).bind fun q' further => ?_
        exact parseRule_gives (tamed.suffix further.suffix) (further.lt.le.trans size) enough
    · exact parseRule_gives tamed size enough
  refine parsed.bind fun r _ => ?_
  obtain ⟨top, q⟩ := r
  cases top with
  | error err => exact gives_done trivial
  | ok top => cases root <;> exact gives_done trivial

/-- A class with a character that the map sends to a negative one. -/
theorem class_aborts {pattern rest : List Byte} {b : Nat} {esc : Bool}
    {root : Option Tnode} (read : nextcharSet pattern = (b, esc, rest)) (two : 2 ≤ b)
    (plain : ¬ (esc = false ∧ (b = 93 ∨ b = 94 ∨ b = 45))) (negative : mapChar cmap b < 0)
    (fuel : Nat) (result : Option DfaErr × Option Tnode × DfaParse) :
    dfaParse cmap fuel p root (91 :: pattern) ≠ .done result := by
  have not_close : ¬ (esc = false ∧ b = 93) := fun both => plain ⟨both.1, .inl both.2⟩
  have not_caret : ¬ (esc = false ∧ b = 94) := fun both => plain ⟨both.1, .inr (.inl both.2)⟩
  have not_hyphen : ¬ (esc = false ∧ b = 45) := fun both => plain ⟨both.1, .inr (.inr both.2)⟩
  have aborts : addBSet resBSet (mapChar cmap b) = .aborted := if_neg fun both => by omega
  have loop (fuel : Nat) : readCharsetLoop cmap fuel resBSet b esc rest = .running ∨
      readCharsetLoop cmap fuel resBSet b esc rest = .aborted := by
    cases fuel with
    | zero => exact .inl rfl
    | succ fuel =>
      rw [readCharsetLoop, if_neg (by omega : b ≠ 0), if_neg not_close, if_neg not_hyphen,
        classChar, if_neg (by omega)]
      dsimp only
      rw [aborts]
      exact .inr rfl
  have charset (fuel : Nat) (q : DfaParse) (ptr : q.exprPtr = pattern) :
      readCharset cmap fuel q = .running ∨ readCharset cmap fuel q = .aborted := by
    rw [readCharset, ptr, read]
    dsimp only
    rw [if_neg not_caret]
    rcases loop fuel with run | run
    · rw [run]
      exact .inl rfl
    · rw [run]
      exact .inr rfl
  have lexed (q : DfaParse) (ptr : q.exprPtr = 91 :: pattern) (outside : q.insideString = false) :
      lex cmap fuel q = .running ∨ lex cmap fuel q = .aborted := by
    cases fuel with
    | zero => exact .inl rfl
    | succ fuel =>
      have bracket : nextchar (91 :: pattern) = (91, false, pattern) := rfl
      rw [lex, lexSub, ptr, bracket]
      dsimp only
      rw [if_neg (by decide), if_neg (by decide), if_neg (by rw [outside]; decide), if_pos rfl]
      rcases charset fuel { q with lookCh := 91, exprPtr := pattern } rfl with run | run
      · rw [run]
        exact .inl rfl
      · rw [run]
        exact .inr rfl
  rw [dfaParse, doParse]
  rcases lexed { p with exprPtr := 91 :: pattern, insideString := false } rfl rfl with run | run
  · rw [run]
    exact nofun
  · rw [run]
    exact nofun

theorem nextcharSet_plain {b : Nat} (ne : b ≠ 92) (rest : List Byte) :
    nextcharSet (b :: rest) = (b, false, rest) := by
  rw [nextcharSet.eq_def]
  split
  · next same =>
      obtain ⟨rfl, rfl⟩ := List.cons.inj same
      rfl
  · rw [nextchar.eq_def]
    split
    · next same => exact absurd same (cons_ne_nil _ _)
    · next same => exact absurd (List.cons.inj same).1 ne
    · next same => exact absurd (List.cons.inj same).1 ne
    · next same =>
        obtain ⟨rfl, rfl⟩ := List.cons.inj same
        rfl

theorem mapChar_nonneg (map : CMap) {b : Nat} (char : b ≤ charsetSize) :
    0 ≤ mapChar (some map) b ↔ (map.map [b]).1.headD 0 < 128 := by
  have small := headD_map_le map char
  rw [mapChar, signedChar]
  split
  · next below => exact iff_of_true (Int.natCast_nonneg _) below
  · next above =>
      refine iff_of_false (fun nonneg => ?_) above
      have byte : (((map.map [b]).1.headD 0 : Nat) : Int) ≤ charsetSize := Int.ofNat_le.mpr small
      have size : (charsetSize : Int) = 255 := rfl
      omega

/-- A pattern is parsed to its end, with a tree or an error and without a failed assertion, when the
map sends none of its characters above 127; and all patterns are, exactly when the map sends no
single character there. -/
theorem dfa_parse_ends (cmap : Option CMap) (p : DfaParse) (root : Option Tnode) :
    (∀ pattern, CString pattern → Tame cmap pattern →
        ∃ fuel result, dfaParse cmap fuel p root pattern = .done result) ∧
      ((∀ pattern, CString pattern →
          ∃ fuel result, dfaParse cmap fuel p root pattern = .done result) ↔
        ∀ map, cmap = some map → ∀ b, 2 ≤ b → b ≤ charsetSize →
          (map.map [b]).1.headD 0 < 128) := by
  have ends : ∀ pattern, CString pattern → Tame cmap pattern →
      ∃ fuel result, dfaParse cmap fuel p root pattern = .done result := by
    intro pattern str tame
    obtain ⟨result, done, -⟩ := dfaParse_gives p root str tame le_rfl
    exact ⟨_, result, done⟩
  refine ⟨ends, fun all map is_map b two small => ?_, fun below pattern str => ends pattern str ?_⟩
  · rw [← mapChar_nonneg map small, ← is_map]
    by_contra negative
    have negative := not_le.mp negative
    rcases Classical.em (b = 93 ∨ b = 94 ∨ b = 45 ∨ b = 92) with special | ordinary
    · have read : nextcharSet [92, b] = (b, true, []) := by
        rcases special with rfl | rfl | rfl | rfl <;> rfl
      obtain ⟨fuel, result, done⟩ := all [91, 92, b] (by
        intro c mem
        simp only [mem_cons, not_mem_nil, or_false] at mem
        rcases mem with rfl | rfl | rfl
        · decide
        · decide
        · exact ⟨Nat.zero_lt_two.trans_le two, small⟩)
      exact class_aborts read two (fun both => absurd both.1 (by decide)) negative fuel result done
    · have read := nextcharSet_plain (b := b) (fun same => ordinary (by simp [same])) []
      obtain ⟨fuel, result, done⟩ := all [91, b] (by
        intro c mem
        simp only [mem_cons, not_mem_nil, or_false] at mem
        rcases mem with rfl | rfl
        · decide
        · exact ⟨Nat.zero_lt_two.trans_le two, small⟩)
      refine class_aborts read two (fun both => ordinary ?_) negative fuel result done
      exact both.2.imp_right fun rest => rest.imp_right Or.inl
  · intro ch mem two
    have small : ch ≤ charsetSize := by
      rcases mem_append.mp mem with inside | inside
      · exact (str ch inside).2
      · exact (by decide : ∀ ch ∈ escaped, ch ≤ charsetSize) ch inside
    cases cmap with
    | none => exact Int.natCast_nonneg _
    | some map => exact (mapChar_nonneg map small).mpr (below map rfl ch two small)

def sameChar : CMap where
  map string := (string.take 1, 1)
  advances _ some := ⟨le_rfl, length_pos_of_ne_nil some⟩
  bytes _ small b mem := small b (mem_of_mem_take mem)

/-- With characters kept as they are, a class with a character above 127 fails an assertion. -/
theorem not_dfa_parse_ends :
    ¬ ∀ (cmap : Option CMap) (p : DfaParse) (pattern : List Byte), CString pattern →
      ∃ fuel result, dfaParse cmap fuel p none pattern = .done result := by
  intro all
  obtain ⟨fuel, result, done⟩ := all (some sameChar) dfaInit [91, 233, 93]
    (show ∀ b ∈ [91, 233, 93], 0 < b ∧ b ≤ charsetSize by decide)
  exact class_aborts (nextcharSet_plain (by decide) [93]) (by decide) (by decide) (by decide) fuel
    result done

end Mapped

end Zebra.Dfa
