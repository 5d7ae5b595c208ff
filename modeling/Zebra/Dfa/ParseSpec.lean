import Zebra.Dfa.LexSpec

/-!
# The parser builds trees for what patterns denote

The tree of an expression has the words its tokens denote, and its leaves have positions of their
own, numbered in the order they are made.
-/

namespace Zebra.Dfa

open Option List

/-- Positions between `lo` and `hi`, each at one leaf with a range of characters. -/
structure Numbered (lo : Nat) (t : Tnode) (hi : Nat) : Prop where
  le : lo ≤ hi
  within : ∀ x ∈ t.positions, lo < x ∧ x ≤ hi
  distinct : t.positions.Nodup
  ranges : ∀ x ch, t.At x ch → 0 ≤ ch.1 ∧ ch.1 ≤ ch.2 ∧ ch.2 ≤ charsetSize

namespace Numbered

variable {lo mid hi : Nat} {t1 t2 : Tnode}

theorem leaf {ch0 ch1 : Nat} (le : ch0 ≤ ch1) (small : ch1 ≤ charsetSize) :
    Numbered lo (.leaf (lo + 1) ch0 ch1) (lo + 1) where
  le := Nat.le_succ lo
  within x mem := by
    rw [mem_singleton.mp mem]
    omega
  distinct := nodup_singleton _
  ranges := by
    rintro x ch ⟨-, rfl⟩
    simp only
    omega

theorem epsilon : Numbered lo .epsilon lo where
  le := le_rfl
  within := by simp [Tnode.positions]
  distinct := nodup_nil
  ranges _ _ at_x := at_x.elim

/-- The positions of two trees, the second made behind the first. -/
theorem positions (first : Numbered lo t1 mid) (second : Numbered mid t2 hi) :
    (∀ x ∈ t1.positions ++ t2.positions, lo < x ∧ x ≤ hi) ∧
      (t1.positions ++ t2.positions).Nodup := by
  have le := first.le
  have le' := second.le
  refine ⟨fun x mem => ?_, nodup_append'.mpr ⟨first.distinct, second.distinct, ?_⟩⟩
  · rcases mem_append.mp mem with mem | mem
    · have within := first.within x mem
      omega
    · have within := second.within x mem
      omega
  · intro x mem mem'
    have within := first.within x mem
    have within' := second.within x mem'
    omega

theorem cat (first : Numbered lo t1 mid) (second : Numbered mid t2 hi) :
    Numbered lo (.cat t1 t2) hi where
  le := first.le.trans second.le
  within := (first.positions second).1
  distinct := (first.positions second).2
  ranges x ch at_x := at_x.elim (first.ranges x ch) (second.ranges x ch)

theorem or (first : Numbered lo t1 mid) (second : Numbered mid t2 hi) :
    Numbered lo (.or t1 t2) hi where
  le := first.le.trans second.le
  within := (first.positions second).1
  distinct := (first.positions second).2
  ranges x ch at_x := at_x.elim (first.ranges x ch) (second.ranges x ch)

theorem star (numbered : Numbered lo t1 hi) : Numbered lo (.star t1) hi :=
  ⟨numbered.le, numbered.within, numbered.distinct, numbered.ranges⟩

theorem plus (numbered : Numbered lo t1 hi) : Numbered lo (.plus t1) hi :=
  ⟨numbered.le, numbered.within, numbered.distinct, numbered.ranges⟩

end Numbered

theorem leaf_lang {pos ch0 ch1 : Nat} :
    (Tnode.leaf pos ch0 ch1).lang = charsLang fun c => ch0 ≤ c ∧ c ≤ ch1 := by
  ext w
  constructor
  · rintro ⟨a, rfl, takes⟩
    rw [Takes, if_pos (Int.natCast_nonneg ch0)] at takes
    obtain ⟨c, rfl⟩ := Int.eq_ofNat_of_zero_le ((Int.natCast_nonneg ch0).trans takes.1)
    exact ⟨c, ⟨Int.ofNat_le.mp takes.1, Int.ofNat_le.mp takes.2⟩, rfl⟩
  · rintro ⟨c, ⟨ge, le⟩, rfl⟩
    refine ⟨c, rfl, ?_⟩
    rw [Takes, if_pos (Int.natCast_nonneg ch0)]
    exact ⟨Int.ofNat_le.mpr ge, Int.ofNat_le.mpr le⟩

theorem charsLang_add (set set' : Nat → Prop) :
    charsLang set + charsLang set' = charsLang fun c => set c ∨ set' c := by
  ext w
  simp only [Language.mem_add]
  constructor
  · rintro (⟨c, mem, rfl⟩ | ⟨c, mem, rfl⟩)
    · exact ⟨c, .inl mem, rfl⟩
    · exact ⟨c, .inr mem, rfl⟩
  · rintro ⟨c, mem | mem, rfl⟩
    · exact .inl ⟨c, mem, rfl⟩
    · exact .inr ⟨c, mem, rfl⟩

theorem charsLang_congr {set set' : Nat → Prop} (same : ∀ c, set c ↔ set' c) :
    charsLang set = charsLang set' := by
  rw [show set = set' from funext fun c => propext (same c)]

/-- A tree of the members of `charset` before `bound`. -/
structure Ranges (charset : BSet) (lo : Nat) (t : Tnode) (hi bound : Nat) : Prop where
  numbered : Numbered lo t hi
  lang : t.lang = charsLang fun c => BSet.Mem charset c ∧ c < bound

variable {charset : BSet}

/-- A range of members up to the next character that is none, or up to the end. -/
theorem Ranges.add {lo hi bound ch0 ch1 : Nat} {t : Tnode}
    (ranges : Ranges charset lo t hi bound) (bound_le : bound ≤ ch0) (le : ch0 ≤ ch1)
    (small : ch1 ≤ charsetSize) (before : ∀ c, bound ≤ c → c < ch0 → ¬BSet.Mem charset c)
    (members : ∀ c, ch0 ≤ c → c ≤ ch1 → BSet.Mem charset c) :
    Ranges charset lo (.or t (.leaf (hi + 1) ch0 ch1)) (hi + 1) (ch1 + 1) where
  numbered := ranges.numbered.or (.leaf le small)
  lang := by
    rw [Tnode.lang, ranges.lang, leaf_lang, charsLang_add]
    refine charsLang_congr fun c => ?_
    constructor
    · rintro (⟨mem, lt⟩ | ⟨ge, le'⟩)
      · exact ⟨mem, by omega⟩
      · exact ⟨members c ge le', by omega⟩
    · rintro ⟨mem, lt⟩
      by_cases lt_bound : c < bound
      · exact .inl ⟨mem, lt_bound⟩
      · have ge : ch0 ≤ c := by
          by_contra lt_ch0
          exact before c (by omega) (by omega) mem
        exact .inr ⟨ge, by omega⟩

theorem Ranges.first {lo ch0 ch1 : Nat} (le : ch0 ≤ ch1) (small : ch1 ≤ charsetSize)
    (before : ∀ c, c < ch0 → ¬BSet.Mem charset c)
    (members : ∀ c, ch0 ≤ c → c ≤ ch1 → BSet.Mem charset c) :
    Ranges charset lo (.leaf (lo + 1) ch0 ch1) (lo + 1) (ch1 + 1) where
  numbered := .leaf le small
  lang := by
    rw [leaf_lang]
    refine charsLang_congr fun c => ⟨fun ⟨ge, le'⟩ => ⟨members c ge le', by omega⟩, ?_⟩
    rintro ⟨mem, lt⟩
    have ge : ch0 ≤ c := by
      by_contra lt_ch0
      exact before c (by omega) mem
    exact ⟨ge, by omega⟩

/-- All members are before `bound`. -/
theorem Ranges.whole {lo hi bound bound' : Nat} {t : Tnode} (ranges : Ranges charset lo t hi bound)
    (behind : ∀ c, BSet.Mem charset c → (c < bound ↔ c < bound')) :
    Ranges charset lo t hi bound' where
  numbered := ranges.numbered
  lang := ranges.lang.trans (charsLang_congr fun c => and_congr_right (behind c))

/-- From a member on there are members up to the next character that is none. -/
theorem members_of_traviBSet_some {ch0 ch1 : Nat} (mem : BSet.Mem charset ch0)
    (found : traviBSet charset (ch0 + 1) = some ch1) :
    ch0 < ch1 ∧ ch1 - 1 ≤ charsetSize ∧ ∀ c, ch0 ≤ c → c ≤ ch1 - 1 → BSet.Mem charset c := by
  obtain ⟨ge, small, -, members⟩ := traviBSet_some found
  refine ⟨ge, by omega, fun c c_ge c_le => ?_⟩
  rcases Nat.eq_or_lt_of_le c_ge with rfl | lt
  · exact mem
  · exact members c lt (by omega)

theorem members_of_traviBSet_none {ch0 : Nat} (mem : BSet.Mem charset ch0)
    (found : traviBSet charset (ch0 + 1) = none) :
    ∀ c, ch0 ≤ c → c ≤ charsetSize → BSet.Mem charset c := by
  intro c c_ge c_le
  rcases Nat.eq_or_lt_of_le c_ge with rfl | lt
  · exact mem
  · exact traviBSet_none found c lt c_le

theorem csetLoop_spec {lo : Nat} {fuel ch1 hi : Nat} {t : Tnode}
    (ranges : Ranges charset lo t hi ch1) (enough : charsetSize < ch1 + fuel) :
    Ranges charset lo (csetLoop charset fuel ch1 t hi).1 (csetLoop charset fuel ch1 t hi).2
      (charsetSize + 1) := by
  induction fuel generalizing ch1 hi t with
  | zero =>
    refine ranges.whole fun c mem => ?_
    have small := mem.1
    omega
  | succ fuel ih =>
    rw [csetLoop]
    cases found : travBSet charset ch1 with
    | none =>
      refine ranges.whole fun c mem => ?_
      have small := mem.1
      have none := travBSet_none found c
      constructor
      · omega
      · intro _
        by_contra ge
        exact none (not_lt.mp ge) mem
    | some ch0 =>
      obtain ⟨ch1_le, ch0_mem, before⟩ := travBSet_some found
      cases found' : traviBSet charset (ch0 + 1) with
      | none =>
        have added := ranges.add ch1_le ch0_mem.1 le_rfl before
          (members_of_traviBSet_none ch0_mem found')
        simpa only [found'] using added
      | some ch1' =>
        obtain ⟨lt, le, members⟩ := members_of_traviBSet_some ch0_mem found'
        have added := ranges.add ch1_le (Nat.le_sub_one_of_lt lt) le before members
        rw [Nat.sub_add_cancel (Nat.one_le_of_lt lt)] at added
        simpa only [found'] using ih added (by omega)

/-- A tree of a set of characters has the words of one of them. -/
theorem mkTnodeCset_spec (charset : BSet) (lo : Nat) :
    Numbered lo (mkTnodeCset charset lo).1 (mkTnodeCset charset lo).2 ∧
      ((∃ c, BSet.Mem charset c) →
        (mkTnodeCset charset lo).1.lang = charsLang (BSet.Mem charset)) := by
  have whole {t : Tnode} {hi : Nat} (ranges : Ranges charset lo t hi (charsetSize + 1)) :
      Numbered lo t hi ∧
        ((∃ c, BSet.Mem charset c) → t.lang = charsLang (BSet.Mem charset)) := by
    refine ⟨ranges.numbered, fun _ => ranges.lang.trans (charsLang_congr fun c => ?_)⟩
    exact and_iff_left_of_imp fun mem => Nat.lt_succ_of_le mem.1
  rw [mkTnodeCset]
  cases found : travBSet charset 0 with
  | none =>
    refine ⟨.epsilon, ?_⟩
    rintro ⟨c, mem⟩
    exact absurd mem (travBSet_none found c (Nat.zero_le c))
  | some ch0 =>
    obtain ⟨-, ch0_mem, before⟩ := travBSet_some found
    have before' (c : Nat) : c < ch0 → ¬BSet.Mem charset c := before c (Nat.zero_le c)
    cases found' : traviBSet charset (ch0 + 1) with
    | none =>
      have ranges : Ranges charset lo _ _ _ :=
        .first ch0_mem.1 le_rfl before' (members_of_traviBSet_none ch0_mem found')
      simpa only [found'] using whole ranges
    | some ch1 =>
      obtain ⟨lt, le, members⟩ := members_of_traviBSet_some ch0_mem found'
      have ranges : Ranges charset lo _ _ _ :=
        .first (Nat.le_sub_one_of_lt lt) le before' members
      rw [Nat.sub_add_cancel (Nat.one_le_of_lt lt)] at ranges
      simpa only [found'] using whole (csetLoop_spec ranges (Nat.lt_of_lt_of_le
        (Nat.lt_succ_self charsetSize) (Nat.le_add_left _ _)))

def Inhabited (toks : List Token) : Prop := ∀ set, Token.chars set ∈ toks → ∃ c, set c

/-- The parser has taken an expression from `p` to `p'` and made the tree `t` of it. -/
structure Parsed (level : Level) (p : DfaParse) (t : Tnode) (p' : DfaParse) : Prop where
  scanning : Scanning p'
  numbered : Numbered p.position t p'.position
  rule : p'.rule = p.rule
  anyset : p'.anyset = p.anyset
  denotes : ∃ used, (∀ rest, Upcoming p' rest → Upcoming p (used ++ rest)) ∧
    (Inhabited used → (∃ c, BSet.Mem p.anyset c) → Denotes p.anyset level used t.lang)

/-- `lex` behind the token that the parser looks at. -/
theorem lex_current {fuel : Nat} {p q p' : DfaParse} {tok : Token} (scanning : Scanning p)
    (at_tok : current p = some tok) (inside : q.insideString = p.insideString)
    (ptr : q.exprPtr = p.exprPtr) (cmap : q.charMap = p.charMap) (read : lex fuel q = some p') :
    Kept q p' ∧ Scanning p' ∧ ∀ rest, Upcoming p' rest → Upcoming p (tok :: rest) := by
  obtain ⟨kept, scanning', tokens⟩ := lex_spec (ptr ▸ scanning.str) (cmap.trans scanning.cmap) read
  refine ⟨kept, scanning', fun rest upcoming => ?_⟩
  have behind := tokens rest upcoming
  rw [inside, ptr] at behind
  unfold Upcoming
  rw [at_tok]
  exact ⟨rest, rfl, behind⟩

theorem Inhabited.left {toks toks' : List Token} (inhabited : Inhabited (toks ++ toks')) :
    Inhabited toks := fun set mem => inhabited set (mem_append_left _ mem)

theorem Inhabited.right {toks toks' : List Token} (inhabited : Inhabited (toks ++ toks')) :
    Inhabited toks' := fun set mem => inhabited set (mem_append_right _ mem)

namespace Parsed

variable {p q r : DfaParse} {t t1 t2 : Tnode} {fuel : Nat}

/-- An expression that is one of another kind as it is. -/
theorem lift {level level' : Level} (parsed : Parsed level p t q)
    (up : ∀ toks l, Denotes p.anyset level toks l → Denotes p.anyset level' toks l) :
    Parsed level' p t q where
  scanning := parsed.scanning
  numbered := parsed.numbered
  rule := parsed.rule
  anyset := parsed.anyset
  denotes := by
    obtain ⟨used, upcoming, denotes⟩ := parsed.denotes
    exact ⟨used, upcoming, fun inhabited any => up _ _ (denotes inhabited any)⟩

theorem one (tok : Token) (scanning : Scanning p) (at_tok : current p = some tok) {position : Nat}
    (read : lex fuel { p with position } = some r) (numbered : Numbered p.position t position)
    (denotes : Inhabited [tok] → (∃ c, BSet.Mem p.anyset c) → Denotes p.anyset .atom [tok] t.lang) :
    Parsed .atom p t r := by
  obtain ⟨kept, scanning', upcoming⟩ :=
    lex_current (q := { p with position }) scanning at_tok rfl rfl rfl read
  refine ⟨scanning', ?_, kept.rule, kept.anyset, [tok], upcoming, denotes⟩
  rw [kept.position]
  exact numbered

theorem operator {code : Lookahead} (parsed : Parsed .atom p t1 q)
    (at_code : current q = some (.op code)) (read : lex fuel q = some r)
    (numbered : Numbered p.position t1 q.position → Numbered p.position t q.position)
    (up : ∀ toks, Denotes p.anyset .atom toks t1.lang →
      Denotes p.anyset .repeated (toks ++ [.op code]) t.lang) : Parsed .repeated p t r := by
  obtain ⟨kept, scanning', upcoming'⟩ := lex_current parsed.scanning at_code rfl rfl rfl read
  obtain ⟨used, upcoming, denotes⟩ := parsed.denotes
  refine ⟨scanning', ?_, kept.rule.trans parsed.rule, kept.anyset.trans parsed.anyset,
    used ++ [.op code], fun rest up' => ?_, fun inhabited any => ?_⟩
  · rw [kept.position]
    exact numbered parsed.numbered
  · rw [append_assoc]
    exact upcoming _ (upcoming' rest up')
  · exact up used (denotes inhabited.left any)

/-- Two expressions with a token in between, or none. -/
theorem join {level level1 level2 : Level} {q' : DfaParse} (between : List Token)
    (first : Parsed level1 p t1 q)
      (upcoming : ∀ rest, Upcoming q' rest → Upcoming q (between ++ rest))
    (kept : Kept q q') (second : Parsed level2 q' t2 r)
    (numbered : Numbered p.position t1 q.position → Numbered q.position t2 r.position →
      Numbered p.position t r.position)
    (up : ∀ toks toks', Denotes p.anyset level1 toks t1.lang →
      Denotes p.anyset level2 toks' t2.lang →
      Denotes p.anyset level (toks ++ (between ++ toks')) t.lang) : Parsed level p t r := by
  obtain ⟨used1, upcoming1, denotes1⟩ := first.denotes
  obtain ⟨used2, upcoming2, denotes2⟩ := second.denotes
  have anyset := kept.anyset.trans first.anyset
  refine ⟨second.scanning, numbered first.numbered ?_,
    second.rule.trans (kept.rule.trans first.rule),
    second.anyset.trans anyset, used1 ++ (between ++ used2), fun rest up' => ?_,
    fun inhabited any => ?_⟩
  · have numbered2 := second.numbered
    rwa [kept.position] at numbered2
  · rw [append_assoc, append_assoc]
    exact upcoming1 _ (upcoming _ (upcoming2 rest up'))
  · rw [anyset] at denotes2
    exact up _ _ (denotes1 inhabited.left any) (denotes2 inhabited.right.right any)

end Parsed

/-- What is proved of the parser's functions with a given number of rounds. -/
structure ParserSound (fuel : Nat) : Prop where
  expr1 : ∀ {p t p'}, Scanning p → expr1 fuel p = some (some t, p') → Parsed .alternatives p t p'
  alternatives : ∀ {p t1 q t p'}, Parsed .alternatives p t1 q →
    alternatives fuel t1 q = some (some t, p') → Parsed .alternatives p t p'
  expr2 : ∀ {p t p'}, Scanning p → expr2 fuel p = some (some t, p') → Parsed .factors p t p'
  factors : ∀ {p t1 q t p'}, Parsed .factors p t1 q →
    factors fuel t1 q = some (some t, p') → Parsed .factors p t p'
  expr3 : ∀ {p t p'}, Scanning p → expr3 fuel p = some (some t, p') → Parsed .repeated p t p'
  expr4 : ∀ {p t p'}, Scanning p → expr4 fuel p = some (some t, p') → Parsed .atom p t p'

namespace ParserSound

variable {fuel : Nat} (sound : ParserSound fuel) {p q p' : DfaParse} {t1 t : Tnode}
include sound

theorem expr1_succ (scanning : Scanning p) (read : Dfa.expr1 (fuel + 1) p = some (some t, p')) :
    Parsed .alternatives p t p' := by
  rw [Dfa.expr1] at read
  obtain ⟨⟨t1, q⟩, read1, rest⟩ := bind_eq_some_iff.mp read
  cases t1 with
  | none => simp at rest
  | some t1 =>
    exact sound.alternatives ((sound.expr2 scanning read1).lift fun _ _ => .factors) rest

theorem alternatives_succ (first : Parsed .alternatives p t1 q)
    (read : Dfa.alternatives (fuel + 1) t1 q = some (some t, p')) :
      Parsed .alternatives p t p' := by
  rw [Dfa.alternatives] at read
  split at read
  · next alt =>
    obtain ⟨q', lexed, read⟩ := bind_eq_some_iff.mp read
    obtain ⟨⟨t2, r⟩, read2, rest⟩ := bind_eq_some_iff.mp read
    have at_alt : current q = some (.op .alt) := by simp [current, alt]
    obtain ⟨kept, scanning, upcoming⟩ := lex_current first.scanning at_alt rfl rfl rfl lexed
    cases t2 with
    | none => simp at rest
    | some t2 =>
      have joined : Parsed .alternatives p (.or t1 t2) r :=
        first.join [.op .alt] upcoming kept (sound.expr2 scanning read2) .or
          fun _ _ => .alt
      exact sound.alternatives joined rest
  · obtain ⟨tree_eq, rfl⟩ := Prod.mk.inj (some.inj read)
    exact some.inj tree_eq ▸ first

theorem expr2_succ (scanning : Scanning p) (read : Dfa.expr2 (fuel + 1) p = some (some t, p')) :
    Parsed .factors p t p' := by
  rw [Dfa.expr2] at read
  obtain ⟨⟨t1, q⟩, read1, rest⟩ := bind_eq_some_iff.mp read
  cases t1 with
  | none => simp at rest
  | some t1 =>
    exact sound.factors ((sound.expr3 scanning read1).lift fun _ _ => .repeated) rest

theorem factors_succ (first : Parsed .factors p t1 q)
    (read : Dfa.factors (fuel + 1) t1 q = some (some t, p')) : Parsed .factors p t p' := by
  rw [Dfa.factors] at read
  split at read
  · obtain ⟨⟨t2, r⟩, read2, rest⟩ := bind_eq_some_iff.mp read
    cases t2 with
    | none => simp at rest
    | some t2 =>
      have joined : Parsed .factors p (.cat t1 t2) r :=
        first.join [] (fun _ => id) ⟨rfl, rfl, rfl, rfl⟩ (sound.expr3 first.scanning read2) .cat
          fun _ _ => .cat
      exact sound.factors joined rest
  · obtain ⟨tree_eq, rfl⟩ := Prod.mk.inj (some.inj read)
    exact some.inj tree_eq ▸ first

theorem expr3_succ (scanning : Scanning p) (read : Dfa.expr3 (fuel + 1) p = some (some t, p')) :
    Parsed .repeated p t p' := by
  rw [Dfa.expr3] at read
  obtain ⟨⟨t1, q⟩, read1, rest⟩ := bind_eq_some_iff.mp read
  cases t1 with
  | none => simp at rest
  | some t1 =>
    have first := sound.expr4 scanning read1
    simp only at rest
    split at rest
    · next clos0 =>
      obtain ⟨r, lexed, eq⟩ := bind_eq_some_iff.mp rest
      obtain ⟨tree_eq, rfl⟩ := Prod.mk.inj (some.inj eq)
      obtain rfl := some.inj tree_eq
      exact first.operator (by simp [current, clos0]) lexed .star fun _ => .clos0
    · next clos1 =>
      obtain ⟨r, lexed, eq⟩ := bind_eq_some_iff.mp rest
      obtain ⟨tree_eq, rfl⟩ := Prod.mk.inj (some.inj eq)
      obtain rfl := some.inj tree_eq
      exact first.operator (by simp [current, clos1]) lexed .plus fun _ => .clos1
    · next quest =>
      obtain ⟨r, lexed, eq⟩ := bind_eq_some_iff.mp rest
      obtain ⟨tree_eq, rfl⟩ := Prod.mk.inj (some.inj eq)
      obtain rfl := some.inj tree_eq
      exact first.operator (by simp [current, quest]) lexed (fun numbered => numbered.or .epsilon)
        fun _ => .quest
    · obtain ⟨tree_eq, rfl⟩ := Prod.mk.inj (some.inj rest)
      exact some.inj tree_eq ▸ first.lift fun _ _ => .atom

theorem expr4_succ (scanning : Scanning p) (read : Dfa.expr4 (fuel + 1) p = some (some t, p')) :
    Parsed .atom p t p' := by
  rw [Dfa.expr4] at read
  split at read
  · next lp =>
    obtain ⟨q, lexed, read⟩ := bind_eq_some_iff.mp read
    obtain ⟨⟨t1, r⟩, read1, rest⟩ := bind_eq_some_iff.mp read
    have at_lp : current p = some (.op .lp) := by simp [current, lp]
    obtain ⟨kept, scanning', upcoming⟩ := lex_current scanning at_lp rfl rfl rfl lexed
    cases t1 with
    | none => simp at rest
    | some t1 =>
      have inner := sound.expr1 scanning' read1
      simp only at rest
      split at rest
      · next rp =>
        obtain ⟨r', lexed', eq⟩ := bind_eq_some_iff.mp rest
        obtain ⟨tree_eq, rfl⟩ := Prod.mk.inj (some.inj eq)
        obtain rfl := some.inj tree_eq
        have at_rp : current r = some (.op .rp) := by simp [current, rp]
        obtain ⟨kept', scanning'', upcoming'⟩ := lex_current inner.scanning at_rp rfl rfl rfl lexed'
        obtain ⟨used, upcoming1, denotes⟩ := inner.denotes
        refine ⟨scanning'', ?_, kept'.rule.trans (inner.rule.trans kept.rule),
          kept'.anyset.trans (inner.anyset.trans kept.anyset), .op .lp :: used ++ [.op .rp],
          fun rest up' => ?_, fun inhabited any => ?_⟩
        · rw [kept'.position, ← kept.position]
          exact inner.numbered
        · rw [cons_append, cons_append, append_assoc]
          exact upcoming _ (upcoming1 _ (upcoming' rest up'))
        · rw [kept.anyset] at denotes
          exact .group (denotes (fun set mem => inhabited set (by simp [mem])) any)
      · simp at rest
  · next char =>
    obtain ⟨q, lexed, eq⟩ := bind_eq_some_iff.mp read
    obtain ⟨tree_eq, rfl⟩ := Prod.mk.inj (some.inj eq)
    obtain rfl := some.inj tree_eq
    refine .one (.char p.lookCh) scanning (by simp [current, char]) lexed
      (.leaf le_rfl (scanning.small char)) fun _ _ => ?_
    rw [leaf_lang, charsLang_congr fun c => (and_comm.trans le_antisymm_iff.symm)]
    exact .char
  · next chars =>
    obtain ⟨numbered, lang⟩ := mkTnodeCset_spec p.lookChars p.position
    simp only [mkCset] at read
    obtain ⟨q, lexed, eq⟩ := bind_eq_some_iff.mp read
    obtain ⟨tree_eq, rfl⟩ := Prod.mk.inj (some.inj eq)
    obtain rfl := some.inj tree_eq
    refine .one (.chars (BSet.Mem p.lookChars)) scanning (by simp [current, chars]) lexed
      numbered fun inhabited _ => ?_
    rw [lang (inhabited _ (by simp))]
    exact .chars
  · next any =>
    obtain ⟨numbered, lang⟩ := mkTnodeCset_spec p.anyset p.position
    simp only [mkCset] at read
    obtain ⟨q, lexed, eq⟩ := bind_eq_some_iff.mp read
    obtain ⟨tree_eq, rfl⟩ := Prod.mk.inj (some.inj eq)
    obtain rfl := some.inj tree_eq
    refine .one (.op .any) scanning (by simp [current, any]) lexed numbered
      fun _ inhabited => ?_
    rw [lang inhabited]
    exact .any
  · next anyz =>
    obtain ⟨numbered, lang⟩ := mkTnodeCset_spec p.anyset p.position
    simp only [mkCset] at read
    obtain ⟨q, lexed, eq⟩ := bind_eq_some_iff.mp read
    obtain ⟨tree_eq, rfl⟩ := Prod.mk.inj (some.inj eq)
    obtain rfl := some.inj tree_eq
    refine .one (.op .anyz) scanning (by simp [current, anyz]) lexed
      (numbered.or .epsilon) fun _ inhabited => ?_
    rw [Tnode.lang, lang inhabited]
    exact .anyz
  · next wild =>
    obtain ⟨q, lexed, eq⟩ := bind_eq_some_iff.mp read
    simp at eq
  · simp at read

end ParserSound

theorem parserSound (fuel : Nat) : ParserSound fuel := by
  induction fuel with
  | zero => constructor <;> intros <;> simp_all [expr1, alternatives, expr2, factors, expr3, expr4]
  | succ fuel sound =>
    exact ⟨sound.expr1_succ, sound.alternatives_succ, sound.expr2_succ, sound.factors_succ,
      sound.expr3_succ, sound.expr4_succ⟩

end Zebra.Dfa
