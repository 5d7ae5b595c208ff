import Zebra.Dfa.Grammar

/-!
# Patterns from parts

What a pattern denotes that is put together from parts, each with the texts that it stands for.
-/

namespace Zebra.Dfa

open List Language

def text (s : List Byte) : List Letter := s.map fun c : Byte => (c : Int)

/-- In front of anything that makes tokens, the pattern makes these. -/
def Spells (pattern : List Byte) (toks : List Token) : Prop :=
  ∀ rest more, Tokens false rest more → Tokens false (pattern ++ rest) (toks ++ more)

/-- A part of a pattern that is an expression for the texts of `P`. -/
def Part (anyset : BSet) (level : Level) (pattern : List Byte) (P : List Byte → Prop) : Prop :=
  ∃ toks l, Spells pattern toks ∧ Denotes anyset level toks l ∧ ∀ s, text s ∈ l ↔ P s

def Plain (c : Nat) : Prop :=
  c ≠ 0 ∧ c ≠ 1 ∧ c ≠ 34 ∧ c ≠ 91 ∧ c ≠ 92 ∧ thompsonChars.lookup c = none

instance (c : Nat) : Decidable (Plain c) := by
  unfold Plain
  infer_instance

theorem Spells.append {pattern pattern' : List Byte} {toks toks' : List Token}
    (first : Spells pattern toks) (second : Spells pattern' toks') :
    Spells (pattern ++ pattern') (toks ++ toks') := by
  intro rest more tokens
  rw [append_assoc, append_assoc]
  exact first _ _ (second _ _ tokens)

theorem Spells.of_reads {pattern : List Byte} {tok : Token}
    (reads : ∀ rest, Reads false (pattern ++ rest) tok false rest) : Spells pattern [tok] :=
  fun rest _ tokens => .cons (reads rest) tokens

variable {c : Nat}

theorem nextchar_plain (plain : c ≠ 92) (rest : List Byte) :
    nextchar (c :: rest) = (c, false, rest) := by
  unfold nextchar
  split <;> simp_all

theorem nextcharSet_plain (plain : c ≠ 92) (rest : List Byte) :
    nextcharSet (c :: rest) = (c, false, rest) := by
  unfold nextcharSet
  split
  next same =>
    obtain ⟨rfl, rfl⟩ := List.cons.inj same
    rfl
  next => exact nextchar_plain plain rest

theorem nextchar_escaped (itself : c ∉ [13, 10, 9, 110, 116, 114, 102])
    (rest : List Byte) : nextchar (92 :: c :: rest) = (c, true, rest) := by
  simp only [mem_cons, not_mem_nil, or_false, not_or] at itself
  rw [nextchar] <;> simp_all

theorem literal_plain (plain : c ≠ 1) (ptr : List Byte) : literal c ptr = (c, ptr) := by
  cases ptr with
  | nil => rfl
  | cons next rest => exact if_neg plain

theorem spells_char (plain : Plain c) : Spells [c] [.char c] := by
  obtain ⟨not_eos, not_one, not_quote, not_bracket, not_escape, not_op⟩ := plain
  apply Spells.of_reads
  intro rest
  have reads := Reads.plain (nextchar_plain not_escape rest) not_eos not_quote not_bracket not_op
  rwa [literal_plain not_one] at reads

theorem spells_op {code : Lookahead} (is : thompsonChars.lookup c = some code)
    (not_eos : code ≠ .eos) (plain : c ≠ 0 ∧ c ≠ 34 ∧ c ≠ 91 ∧ c ≠ 92) : Spells [c] [.op code] := by
  apply Spells.of_reads
  intro rest
  exact .op (nextchar_plain plain.2.2.2 rest) plain.1 plain.2.1 plain.2.2.1 is not_eos

variable {set : Nat → Prop}

theorem text_mem_charsLang {s : List Byte} : text s ∈ charsLang set ↔ ∃ c, set c ∧ s = [c] := by
  constructor
  · rintro ⟨c, member, same⟩
    refine ⟨c, member, ?_⟩
    exact map_injective_iff.mpr Nat.cast_injective same
  · rintro ⟨c, member, rfl⟩
    exact ⟨c, member, rfl⟩

theorem text_mem_mul {l l' : Language Letter} {s : List Byte} :
    text s ∈ l * l' ↔ ∃ a b, s = a ++ b ∧ text a ∈ l ∧ text b ∈ l' := by
  rw [mem_mul]
  constructor
  · rintro ⟨u, u_mem, v, v_mem, same⟩
    obtain ⟨a, b, rfl, rfl, rfl⟩ := map_eq_append_iff.mp same.symm
    exact ⟨a, b, rfl, u_mem, v_mem⟩
  · rintro ⟨a, b, rfl, a_mem, b_mem⟩
    exact ⟨text a, a_mem, text b, b_mem, map_append.symm⟩

theorem text_mem_kstar {l : Language Letter}
    (chars : ∀ s, text s ∈ l ↔ ∃ c, set c ∧ s = [c]) {s : List Byte} :
    text s ∈ KStar.kstar l ↔ ∀ c ∈ s, set c := by
  induction s with
  | nil => exact iff_of_true (nil_mem_kstar _) (by simp)
  | cons c s ih =>
    rw [← one_add_self_mul_kstar_eq_kstar, mem_add, text_mem_mul]
    constructor
    · rintro (none | ⟨a, b, split, first, rest⟩)
      · exact absurd none (by simp [text])
      · obtain ⟨c', member, rfl⟩ := (chars a).mp first
        obtain ⟨rfl, rfl⟩ := List.cons.inj split
        exact forall_mem_cons.mpr ⟨member, ih.mp rest⟩
    · intro all
      obtain ⟨member, rest⟩ := forall_mem_cons.mp all
      exact .inr ⟨[c], s, rfl, (chars _).mpr ⟨c, member, rfl⟩, ih.mpr rest⟩

variable {anyset : BSet} {toks toks' : List Token} {l l' : Language Letter}

theorem Denotes.append (first : Denotes anyset .factors toks l)
    (second : Denotes anyset .factors toks' l') :
    Denotes anyset .factors (toks ++ toks') (l * l') := by
  generalize is : Level.factors = level at second
  induction second with
  | repeated denotes => exact .cat first denotes
  | @cat toks' toks'' l' l'' _ denotes ih _ =>
    rw [← append_assoc, ← mul_assoc]
    exact .cat (ih is) denotes
  | _ => exact absurd is (by decide)

theorem Denotes.or (first : Denotes anyset .alternatives toks l)
    (second : Denotes anyset .alternatives toks' l') :
    Denotes anyset .alternatives (toks ++ .op .alt :: toks') (l + l') := by
  generalize is : Level.alternatives = level at second
  induction second with
  | factors denotes => exact .alt first denotes
  | @alt toks' toks'' l' l'' _ denotes ih _ =>
    rw [← cons_append, ← append_assoc, ← add_assoc]
    exact .alt (ih is) denotes
  | _ => exact absurd is (by decide)

variable {level : Level} {pattern pattern' : List Byte} {P Q : List Byte → Prop}

theorem Part.congr (part : Part anyset level pattern P) (same : ∀ s, P s ↔ Q s) :
    Part anyset level pattern Q := by
  obtain ⟨toks, l, spells, denotes, texts⟩ := part
  exact ⟨toks, l, spells, denotes, fun s => (texts s).trans (same s)⟩

theorem Part.char {c : Nat} (plain : Plain c) : Part anyset .atom [c] (· = [c]) := by
  refine ⟨_, _, spells_char plain, .char, fun s => text_mem_charsLang.trans ?_⟩
  simp

theorem Part.escaped (some : c ≠ 0) (plain : c ≠ 1)
    (itself : c ∉ [13, 10, 9, 110, 116, 114, 102]) : Part anyset .atom [92, c] (· = [c]) := by
  have spells : Spells [92, c] [.char c] := by
    apply Spells.of_reads
    intro rest
    have reads := @Reads.char false (92 :: c :: rest) c true rest
        (nextchar_escaped itself rest) some
      (.inl rfl)
    rwa [literal_plain plain] at reads
  exact ⟨_, _, spells, .char, fun s => text_mem_charsLang.trans (by simp)⟩

theorem Part.any : Part anyset .atom [46] fun s => ∃ c, BSet.Mem anyset c ∧ s = [c] :=
  ⟨_, _, spells_op rfl (by decide) (by decide), .any, fun _ => text_mem_charsLang⟩

theorem Part.ofClass (members : ∀ rest, Class (pattern ++ rest) set rest) :
    Part anyset .atom (91 :: pattern) fun s => ∃ c, set c ∧ s = [c] :=
  ⟨_, _, Spells.of_reads fun rest => .chars rfl (members rest), .chars, fun _ => text_mem_charsLang⟩

theorem Part.range {a b : Nat} (plain : Plain a ∧ a ≠ 45 ∧ a ≠ 93 ∧ a ≠ 94)
    (plain' : Plain b ∧ b ≠ 93) (order : a ≤ b) :
    Part anyset .atom [91, a, 45, b, 93] (fun s => ∃ c, (a ≤ c ∧ c ≤ b) ∧ s = [c]) := by
  obtain ⟨⟨a_eos, a_one, -, -, a_escape, -⟩, a_hyphen, a_close, a_negated⟩ := plain
  obtain ⟨⟨b_eos, b_one, -, -, b_escape, -⟩, b_close⟩ := plain'
  have class_ : ∀ rest, Class (a :: 45 :: b :: 93 :: rest)
      (fun x => x = a ∨ (a ≤ x ∧ x ≤ (unquote b (93 :: rest)).1) ∨ False) rest := by
    intro rest
    apply Class.plain (nextcharSet_plain a_escape _) (by simp [a_negated])
    apply ClassFrom.range a_eos (by simp [a_close]) _ (nextcharSet_plain b_escape _) b_eos
      (by simp [b_close])
    · rw [unquote, if_neg b_one]
      exact .close
    · rw [classItem, if_neg (by simp [a_hyphen]), unquote, if_neg a_one]
      rfl
  apply Part.ofClass
  intro rest
  have same : (fun x => a ≤ x ∧ x ≤ b) =
      fun x => x = a ∨ (a ≤ x ∧ x ≤ (unquote b (93 :: rest)).1) ∨ False := by
    funext x
    simp only [unquote, if_neg b_one, or_false, eq_iff_iff]
    refine ⟨.inr, fun member => member.elim (fun same => ?_) id⟩
    exact ⟨same.ge, same.le.trans order⟩
  rw [same]
  exact class_ rest

theorem Part.atom (part : Part anyset .atom pattern P) : Part anyset .repeated pattern P := by
  obtain ⟨toks, l, spells, denotes, texts⟩ := part
  exact ⟨toks, l, spells, .atom denotes, texts⟩

theorem Part.repeated (part : Part anyset .repeated pattern P) :
    Part anyset .factors pattern P := by
  obtain ⟨toks, l, spells, denotes, texts⟩ := part
  exact ⟨toks, l, spells, .repeated denotes, texts⟩

theorem Part.factors (part : Part anyset .factors pattern P) :
    Part anyset .alternatives pattern P := by
  obtain ⟨toks, l, spells, denotes, texts⟩ := part
  exact ⟨toks, l, spells, .factors denotes, texts⟩

theorem Part.group (part : Part anyset .alternatives pattern P) :
    Part anyset .atom ([40] ++ pattern ++ [41]) P := by
  obtain ⟨toks, l, spells, denotes, texts⟩ := part
  have opens : Spells [40] [.op .lp] := spells_op rfl (by decide) (by decide)
  have closes : Spells [41] [.op .rp] := spells_op rfl (by decide) (by decide)
  exact ⟨_, l, (opens.append spells).append closes, .group denotes, texts⟩

theorem Part.quest (part : Part anyset .atom pattern P) :
    Part anyset .repeated (pattern ++ [63]) (fun s => P s ∨ s = []) := by
  obtain ⟨toks, l, spells, denotes, texts⟩ := part
  refine ⟨_, _, spells.append (spells_op rfl (by decide) (by decide)), .quest denotes, fun s => ?_⟩
  rw [mem_add, texts, mem_one, text, map_eq_nil_iff]

theorem Part.clos0 (part : Part anyset .atom pattern fun s => ∃ c, set c ∧ s = [c]) :
    Part anyset .repeated (pattern ++ [42]) (fun s => ∀ c ∈ s, set c) := by
  obtain ⟨toks, l, spells, denotes, texts⟩ := part
  exact ⟨_, _, spells.append (spells_op rfl (by decide) (by decide)), .clos0 denotes,
    fun s => text_mem_kstar texts⟩

theorem Part.clos1 (part : Part anyset .atom pattern fun s => ∃ c, set c ∧ s = [c]) :
    Part anyset .repeated (pattern ++ [43]) (fun s => s ≠ [] ∧ ∀ c ∈ s, set c) := by
  obtain ⟨toks, l, spells, denotes, texts⟩ := part
  refine ⟨_, _, spells.append (spells_op rfl (by decide) (by decide)), .clos1 denotes, fun s => ?_⟩
  rw [text_mem_mul]
  constructor
  · rintro ⟨a, b, rfl, first, rest⟩
    obtain ⟨c, member, rfl⟩ := (texts a).mp first
    exact ⟨cons_ne_nil _ _,
      forall_mem_cons.mpr ⟨member, (text_mem_kstar texts).mp rest⟩⟩
  · rintro ⟨some, all⟩
    obtain ⟨c, s, rfl⟩ := exists_cons_of_ne_nil some
    obtain ⟨member, rest⟩ := forall_mem_cons.mp all
    exact ⟨[c], s, rfl, (texts _).mpr ⟨c, member, rfl⟩, (text_mem_kstar texts).mpr rest⟩

theorem Part.append (part : Part anyset .factors pattern P)
    (part' : Part anyset .factors pattern' Q) :
    Part anyset .factors (pattern ++ pattern') (fun s => ∃ a b, s = a ++ b ∧ P a ∧ Q b) := by
  obtain ⟨toks, l, spells, denotes, texts⟩ := part
  obtain ⟨toks', l', spells', denotes', texts'⟩ := part'
  refine ⟨_, _, spells.append spells', denotes.append denotes', fun s => ?_⟩
  simp only [text_mem_mul, texts, texts']

theorem Part.or (part : Part anyset .alternatives pattern P)
    (part' : Part anyset .alternatives pattern' Q) :
    Part anyset .alternatives (pattern ++ [124] ++ pattern') (fun s => P s ∨ Q s) := by
  obtain ⟨toks, l, spells, denotes, texts⟩ := part
  obtain ⟨toks', l', spells', denotes', texts'⟩ := part'
  have bar : Spells [124] [.op .alt] := spells_op rfl (by decide) (by decide)
  have joined : Denotes anyset .alternatives (toks ++ [.op .alt] ++ toks') (l + l') := by
    rw [append_assoc]
    exact denotes.or denotes'
  refine ⟨_, _, (spells.append bar).append spells', joined, fun s => ?_⟩
  rw [mem_add, texts, texts']

/-- A string in front of an expression, each character written as `write` does. -/
theorem Part.written {write : Nat → List Byte} {string : List Byte}
    (chars : ∀ c ∈ string, Part anyset .atom (write c) (· = [c]))
    (part : Part anyset .factors pattern P) :
    Part anyset .factors (string.flatMap write ++ pattern) (fun s => ∃ t, s = string ++ t ∧
      P t) := by
  induction string with
  | nil => exact part.congr fun s => by simp
  | cons c string ih =>
    obtain ⟨first, rest⟩ := forall_mem_cons.mp chars
    rw [flatMap_cons, append_assoc]
    refine (first.atom.repeated.append (ih rest)).congr fun s => ?_
    constructor
    · rintro ⟨_, _, rfl, rfl, t, rfl, holds⟩
      exact ⟨t, rfl, holds⟩
    · rintro ⟨t, rfl, holds⟩
      exact ⟨[c], string ++ t, rfl, rfl, t, rfl, holds⟩

theorem Part.behind {string : List Byte} (plain : ∀ c ∈ string, Plain c)
    (part : Part anyset .factors pattern P) :
    Part anyset .factors (string ++ pattern) (fun s => ∃ t, s = string ++ t ∧ P t) := by
  have written := Part.written (fun c member => Part.char (plain c member)) part
  rwa [flatMap_singleton' string] at written

/-- A class or a character as many times as it is written, behind an expression. -/
theorem Part.times (n : Nat) (part : Part anyset .factors pattern P)
    (part' : Part anyset .atom pattern' fun s => ∃ c, set c ∧ s = [c]) :
    Part anyset .factors (pattern ++ (List.replicate n pattern').flatten)
      (fun s => ∃ a b, s = a ++ b ∧ P a ∧ b.length = n ∧ ∀ c ∈ b, set c) := by
  induction n with
  | zero =>
    rw [replicate_zero, flatten_nil, append_nil]
    refine part.congr fun s => ⟨fun holds => ⟨s, [], by simp, holds, rfl, by simp⟩, ?_⟩
    rintro ⟨a, b, rfl, holds, none, -⟩
    rw [length_eq_zero_iff.mp none, append_nil]
    exact holds
  | succ n ih =>
    rw [replicate_succ', flatten_append, flatten_singleton, ← append_assoc]
    refine (ih.append part'.atom.repeated).congr fun s => ?_
    constructor
    · rintro ⟨_, _, rfl, ⟨a, b, rfl, holds, rfl, all⟩, c, member, rfl⟩
      refine ⟨a, b ++ [c], by simp, holds, by simp, ?_⟩
      exact forall_mem_append.mpr ⟨all, by simpa using member⟩
    · rintro ⟨a, b, rfl, holds, length, all⟩
      obtain ⟨b, c, rfl⟩ := eq_nil_or_concat b |>.resolve_left (by rintro rfl; simp at length)
      rw [concat_eq_append] at *
      obtain ⟨all, last⟩ := forall_mem_append.mp all
      exact ⟨a ++ b, [c], by simp, ⟨a, b, rfl, holds, by simpa using length, all⟩, c,
        last c mem_cons_self, rfl⟩

/-- A class or a character up to as many times as it is written, behind an expression. -/
theorem Part.upTo (n : Nat) (part : Part anyset .factors pattern P)
    (part' : Part anyset .atom pattern' fun s => ∃ c, set c ∧ s = [c]) :
    Part anyset .factors (pattern ++ (List.replicate n (pattern' ++ [63])).flatten)
      (fun s => ∃ a b, s = a ++ b ∧ P a ∧ b.length ≤ n ∧ ∀ c ∈ b, set c) := by
  induction n with
  | zero =>
    rw [replicate_zero, flatten_nil, append_nil]
    refine part.congr fun s => ⟨fun holds => ⟨s, [], by simp, holds, le_rfl, by simp⟩, ?_⟩
    rintro ⟨a, b, rfl, holds, none, -⟩
    rw [length_eq_zero_iff.mp (Nat.le_zero.mp none), append_nil]
    exact holds
  | succ n ih =>
    rw [replicate_succ', flatten_append, flatten_singleton, ← append_assoc]
    refine (ih.append part'.quest.repeated).congr fun s => ?_
    constructor
    · rintro ⟨_, _, rfl, ⟨a, b, rfl, holds, length, all⟩, ⟨c, member, rfl⟩ | rfl⟩
      · refine ⟨a, b ++ [c], by simp, holds, by simpa using length, ?_⟩
        exact forall_mem_append.mpr ⟨all, by simpa using member⟩
      · exact ⟨a, b, by simp, holds, by omega, all⟩
    · rintro ⟨a, b, rfl, holds, length, all⟩
      obtain rfl | ⟨b, c, rfl⟩ := eq_nil_or_concat b
      · exact ⟨a, [], by simp, ⟨a, [], by simp, holds, Nat.zero_le n, by simp⟩, .inr rfl⟩
      · rw [concat_eq_append] at *
        obtain ⟨all, last⟩ := forall_mem_append.mp all
        exact ⟨a ++ b, [c], by simp, ⟨a, b, rfl, holds, by simpa using length, all⟩,
          .inl ⟨c, last c mem_cons_self, rfl⟩⟩

/-- Alternatives that are written one after another, each with a bar behind it or left out. -/
theorem Part.anyOf {ι : Type} {written : ι → List Byte} {R : ι → List Byte → Prop}
    (indices : List ι)
    (parts : ∀ i ∈ indices, written i = [] ∧ (∀ s, ¬ R i s) ∨
      ∃ p, written i = p ++ [124] ∧ Part anyset .alternatives p (R i))
    (part : Part anyset .alternatives pattern P) :
    Part anyset .alternatives (indices.flatMap written ++ pattern)
      (fun s => (∃ i ∈ indices, R i s) ∨ P s) := by
  induction indices with
  | nil => exact part.congr fun s => by simp
  | cons i indices ih =>
    obtain ⟨first, rest⟩ := forall_mem_cons.mp parts
    have rest := ih rest
    obtain ⟨none, never⟩ | ⟨p, whole, first⟩ := first
    · rw [flatMap_cons, none, nil_append]
      exact rest.congr fun s => by simp [never s]
    · rw [flatMap_cons, whole, append_assoc]
      exact (first.or rest).congr fun s => by simp [or_assoc]

theorem Part.denotes (part : Part anyset .alternatives pattern P) :
    ∃ l, PatternDenotes anyset pattern l ∧ ∀ s, text s ∈ l ↔ P s := by
  obtain ⟨toks, l, spells, denotes, texts⟩ := part
  have tokens := spells [] [] (.eos .eos)
  rw [append_nil, append_nil] at tokens
  exact ⟨l, .plain tokens (.expr denotes), texts⟩

end Zebra.Dfa
