import Zebra.Dfa.Unambiguous
import Zebra.Dfa.MappedSafe
import Zebra.Search.Masks

/-!
# The language of a mask

What is written of a term is read again as its mask, unless it is cut off at a tab or newline or a
character 1 quotes what is behind it.
-/

namespace Zebra.Masks

open Dfa Search List Option
open Mapped (nextchar_suffix nextcharSet_suffix)

variable {mask : Mask} {masks masks' front back : List Mask} {s : List Nat}

/-! ## Strings of masks -/

theorem stands_append : Stands (masks ++ masks') s ↔
    ∃ a b, s = a ++ b ∧ Stands masks a ∧ Stands masks' b := by
  induction masks generalizing s with
  | nil =>
    constructor
    · exact fun stands => ⟨[], s, rfl, rfl, stands⟩
    · rintro ⟨_, _, rfl, rfl, stands⟩
      exact stands
  | cons mask masks ih =>
    constructor
    · rintro ⟨a, _, rfl, fits, stands⟩
      obtain ⟨b, c, rfl, stands, stands'⟩ := ih.mp stands
      exact ⟨a ++ b, c, (append_assoc _ _ _).symm, ⟨a, b, rfl, fits, stands⟩, stands'⟩
    · rintro ⟨_, c, rfl, ⟨a, b, rfl, fits, stands⟩, stands'⟩
      exact ⟨a, b ++ c, append_assoc _ _ _, fits, ih.mpr ⟨b, c, rfl, stands, stands'⟩⟩

theorem stands_one : Stands [mask] s ↔ mask.Fits s := by
  constructor
  · rintro ⟨a, _, rfl, fits, rfl⟩
    rwa [append_nil]
  · exact fun fits => ⟨s, [], (append_nil s).symm, fits, rfl⟩

theorem stands_replicate (n : Nat) : Stands (replicate n (.upTo 1)) s ↔ s.length ≤ n := by
  induction n generalizing s with
  | zero => exact length_eq_zero_iff.symm.trans Nat.le_zero.symm
  | succ n ih =>
    constructor
    · rintro ⟨a, b, rfl, fits, stands⟩
      have short : a.length ≤ min 1 20 := fits
      have := ih.mp stands
      rw [length_append]
      omega
    · intro short
      refine ⟨s.take 1, s.drop 1, (take_append_drop 1 s).symm, ?_, ih.mpr ?_⟩
      · exact length_take_le 1 s
      · rw [length_drop]
        omega

theorem stands_split : Stands (masks.flatMap Mask.split) s ↔ Stands masks s := by
  induction masks generalizing s with
  | nil => rfl
  | cons mask masks ih =>
    have same (a : List Nat) : Stands mask.split a ↔ mask.Fits a := by
      cases mask with
      | upTo n => exact stands_replicate _
      | _ => exact stands_one
    rw [flatMap_cons, stands_append]
    simp only [Stands, same, ih]

def Mask.sample : Mask → List Nat
  | .char c => [c]
  | .one => [97]
  | _ => []

theorem stands_sample (masks : List Mask) : Stands masks (masks.flatMap Mask.sample) := by
  induction masks with
  | nil => rfl
  | cons mask masks ih =>
    refine ⟨mask.sample, _, flatMap_cons, ?_, ih⟩
    cases mask with
    | char => rfl
    | one => rfl
    | upTo n => exact Nat.zero_le _
    | string => trivial

/-- The characters of a mask are in its strings, each as often. -/
theorem count_le (stands : Stands masks s) (c : Nat) : masks.count (.char c) ≤ s.count c := by
  induction masks generalizing s with
  | nil => exact Nat.zero_le _
  | cons mask masks ih =>
    obtain ⟨a, b, rfl, fits, stands⟩ := stands
    rw [count_append, count_cons, Nat.add_comm]
    refine Nat.add_le_add ?_ (ih stands)
    split
    · next same =>
      rw [beq_iff_eq] at same
      subst same
      have is : a = [c] := fits
      rw [is, count_singleton_self]
    · exact Nat.zero_le _

/-! ## What is read -/

/-- A part of a mask whose characters are none that ends the expression. -/
def Mask.Part : Mask → Prop
  | .char c => 1 ≤ c ∧ c ≤ 255 ∧ c ≠ 9 ∧ c ≠ 10
  | .upTo n => n = 1
  | _ => True

def Texts (P : List Nat → Prop) (s : List Nat) : Prop := (∀ y ∈ s, y ≤ 255) ∧ P s

theorem part_mask (part : mask.Part) (no_quote : mask ≠ .char 1) :
    Part anyChar .factors mask.written (Texts mask.Fits) := by
  have any_iff (a : List Nat) : (∃ c, BSet.Mem anyChar c ∧ a = [c]) ↔ Texts (·.length = 1) a := by
    simp only [mem_anyChar]
    constructor
    · rintro ⟨c, small, rfl⟩
      exact ⟨forall_mem_singleton.mpr small, rfl⟩
    · rintro ⟨small, one⟩
      obtain ⟨c, rfl⟩ := length_eq_one_iff.mp one
      exact ⟨c, small c mem_cons_self, rfl⟩
  cases mask with
  | char c =>
    obtain ⟨_, small, ends⟩ := part
    have reads : Dfa.Part anyChar .atom (addNonSpace c) (· = [c]) := by
      by_cases low : c = 2
      · subst low
        exact Part.char (by decide)
      · have other : c ≠ 1 := fun same => no_quote (congrArg _ same)
        exact part_addNonSpace (by omega) ends
    refine reads.atom.repeated.congr fun a => ⟨?_, And.right⟩
    rintro rfl
    exact ⟨forall_mem_singleton.mpr small, rfl⟩
  | one => exact (Part.any.congr any_iff).atom.repeated
  | upTo n =>
    obtain rfl : n = 1 := part
    refine (Part.any.congr any_iff).quest.repeated.congr fun a => ?_
    constructor
    · rintro (⟨small, one⟩ | rfl)
      · exact ⟨small, one.le⟩
      · exact ⟨by simp, Nat.zero_le _⟩
    · rintro ⟨small, short⟩
      have short : a.length ≤ 1 := short
      rcases Nat.le_one_iff_eq_zero_or_eq_one.mp short with none | one
      · exact .inr (length_eq_zero_iff.mp none)
      · exact .inl ⟨small, one⟩
  | string => exact part_rest.congr fun a => (and_iff_left trivial).symm

theorem texts_append {a b : List Nat} {P Q : List Nat → Prop} (first : Texts P a)
    (second : Texts Q b) :
    ∀ y ∈ a ++ b, y ≤ 255 := by
  simpa [or_imp, forall_and] using ⟨first.1, second.1⟩

theorem written_reads {tail : List Nat} (some : masks ≠ []) (parts : ∀ mask ∈ masks, mask.Part)
    (no_quote : ∀ front back, masks = front ++ .char 1 :: back → back = [] ∧ tail = [])
    (ends : Ends false tail) : ∃ toks l, Tokens false (masks.flatMap Mask.written ++ tail) toks ∧
      Denotes anyChar .factors toks l ∧ ∀ s, text s ∈ l ↔ Texts (Stands masks) s := by
  induction masks with
  | nil => exact absurd rfl some
  | cons mask masks ih =>
    obtain ⟨part, parts⟩ := forall_mem_cons.mp parts
    by_cases quote : mask = .char 1
    · subst quote
      obtain ⟨rfl, rfl⟩ := no_quote [] masks rfl
      have reads : Reads false [1] (.char 1) false [] :=
        @Reads.plain [1] 1 [] rfl (by decide) (by decide) (by decide) rfl
      refine ⟨_, _, .cons reads (.eos .eos), .repeated (.atom .char), fun s => ?_⟩
      rw [text_mem_charsLang, Texts, stands_one]
      constructor
      · rintro ⟨_, rfl, rfl⟩
        exact ⟨by simp, rfl⟩
      · exact fun stands => ⟨1, rfl, stands.2⟩
    · obtain ⟨toks, l, spells, denotes, texts⟩ := part_mask part quote
      obtain rfl | more := eq_or_ne masks []
      · refine ⟨toks, l, ?_, denotes, fun s => (texts s).trans ?_⟩
        · simpa using spells _ _ (.eos ends)
        · rw [Texts, Texts, stands_one]
      · obtain ⟨toks', l', tokens, denotes', texts'⟩ := ih more parts fun front back same =>
          no_quote (mask :: front) back (congrArg _ same)
        refine ⟨_, l * l', ?_, denotes.append denotes', fun s => ?_⟩
        · rw [flatMap_cons, append_assoc]
          exact spells _ _ tokens
        · rw [text_mem_mul]
          constructor
          · rintro ⟨a, b, rfl, first, second⟩
            have first := (texts a).mp first
            have second := (texts' b).mp second
            exact ⟨texts_append first second, a, b, rfl, first.2, second.2⟩
          · rintro ⟨small, a, b, rfl, fits, stands⟩
            obtain ⟨small, small'⟩ := forall_mem_append.mp small
            exact ⟨a, b, rfl, (texts a).mpr ⟨small, fits⟩, (texts' b).mpr ⟨small', stands⟩⟩

/-! ## The character that quotes -/

/-- How much is told by a text: the character 1 tells less where it quotes another. -/
def weight (ptr : List Nat) : Nat :=
  2 * ptr.count 91 + ptr.count 1 + if ptr.getLast? = some 1 then 1 else 0

theorem weight_append (front ptr : List Nat) :
    2 * front.count 91 + front.count 1 + weight ptr ≤ weight (front ++ ptr) := by
  have last : (if ptr.getLast? = some 1 then 1 else 0) ≤
      if (front ++ ptr).getLast? = some 1 then 1 else 0 := by
    split
    · next is => rw [getLast?_append, is, some_or, if_pos rfl]
    · exact Nat.zero_le _
  rw [weight, weight, count_append, count_append]
  omega

theorem weight_suffix {ptr ptr' : List Nat} (suffix : ptr' <:+ ptr) : weight ptr' ≤ weight ptr := by
  obtain ⟨front, rfl⟩ := suffix
  exact (Nat.le_add_left _ _).trans (weight_append front ptr')

def cost : Token → Nat
  | .char c => if c = 1 ∨ c = 91 then 2 else 0
  | .chars _ => 2
  | .op _ => 0

variable {inside inside' esc : Bool} {ptr ptr' rest : List Byte} {c : Nat} {tok : Token}
  {set : Nat → Prop}

theorem nextchar_special (next : nextchar ptr = (c, esc, ptr')) (special : c = 1 ∨ c = 91) :
    ∃ front, ptr = front ++ c :: ptr' := by
  revert next
  fun_cases nextchar ptr with
  | case10 c =>
    rintro ⟨⟩
    exact ⟨[92], rfl⟩
  | case11 =>
    rintro ⟨⟩
    exact ⟨[], rfl⟩
  | _ =>
    rintro ⟨⟩
    rcases special with special | special <;> cases special

theorem unquote_suffix (c : Nat) (ptr : List Byte) : (unquote c ptr).2 <:+ ptr := by
  rw [unquote]
  split
  · exact nextchar_suffix ptr
  · exact suffix_rfl

theorem classItem_suffix (c : Nat) (esc : Bool) (ptr : List Byte) :
    (classItem c esc ptr).2.2.2 <:+ ptr := by
  rw [classItem]
  split
  · exact suffix_rfl
  · exact (nextcharSet_suffix _).trans (unquote_suffix c ptr)

theorem classFrom_suffix (read : ClassFrom c esc ptr set rest) : rest <:+ ptr := by
  induction read with
  | eos => exact suffix_rfl
  | close => exact suffix_rfl
  | @single c esc ptr _ _ _ _ _ _ _ _ item _ _ ih =>
    have suffix := classItem_suffix c esc ptr
    rw [item] at suffix
    exact ih.trans suffix
  | @range c esc ptr _ ptr' last _ ptr'' _ _ _ _ item next _ _ _ ih =>
    have suffix := classItem_suffix c esc ptr
    have behind := nextcharSet_suffix ptr'
    rw [item] at suffix
    rw [next] at behind
    have quoted := (unquote_suffix last ptr'').trans (behind.trans suffix)
    exact ih.trans ((nextcharSet_suffix _).trans quoted)
  | @openRange c esc ptr _ ptr' _ _ _ item next =>
    have suffix := classItem_suffix c esc ptr
    have behind := nextcharSet_suffix ptr'
    rw [item] at suffix
    rw [next] at behind
    exact behind.trans suffix
  | @openEnd c esc ptr _ ptr' _ _ _ _ item next =>
    have suffix := classItem_suffix c esc ptr
    have behind := nextcharSet_suffix ptr'
    rw [item] at suffix
    rw [next] at behind
    exact behind.trans suffix

theorem class_suffix (read : Class ptr set rest) : rest <:+ ptr := by
  cases read with
  | plain next _ from_ =>
    have suffix := nextcharSet_suffix ptr
    rw [next] at suffix
    exact (classFrom_suffix from_).trans suffix
  | @negated ptr' _ _ next from_ =>
    have suffix := nextcharSet_suffix ptr
    rw [next] at suffix
    exact (classFrom_suffix from_).trans ((nextcharSet_suffix ptr').trans suffix)

theorem literal_cost (next : nextchar ptr = (c, esc, ptr')) :
    cost (.char (literal c ptr').1) + weight (literal c ptr').2 ≤ weight ptr := by
  by_cases special : c = 1 ∨ c = 91
  · obtain ⟨front, rfl⟩ := nextchar_special next special
    have whole := weight_suffix (suffix_append front (c :: ptr'))
    refine le_trans ?_ whole
    rcases special with rfl | rfl
    · cases ptr' with
      | nil => decide
      | cons quoted rest =>
        have both := weight_append [1, quoted] rest
        rw [literal, if_pos rfl, cost]
        refine le_trans (Nat.add_le_add_right ?_ _) both
        split
        · next is =>
          rcases is with rfl | rfl
          · decide
          · decide
        · exact Nat.zero_le _
    · rw [literal_plain (by decide)]
      exact weight_append [91] ptr'
  · have suffix := nextchar_suffix ptr
    rw [next] at suffix
    rw [literal_plain fun one => special (.inl one), cost, if_neg special, Nat.zero_add]
    exact weight_suffix suffix

/-- What is told by a token was told by the text. -/
theorem reads_cost (reads : Reads inside ptr tok inside' rest) :
    cost tok + weight rest ≤ weight ptr := by
  induction reads with
  | @quote _ ptr _ _ _ _ next _ ih =>
    have suffix := nextchar_suffix ptr
    rw [next] at suffix
    exact ih.trans (weight_suffix suffix)
  | char next => exact literal_cost next
  | @chars ptr ptr' _ rest next class_ =>
    obtain ⟨front, rfl⟩ := nextchar_special next (.inr rfl)
    have behind := weight_suffix (class_suffix class_)
    have bracket := weight_append (front ++ [91]) ptr'
    rw [count_append, count_singleton_self, append_assoc, singleton_append] at bracket
    rw [cost]
    omega
  | @op ptr _ _ _ next =>
    have suffix := nextchar_suffix ptr
    rw [next] at suffix
    exact (Nat.zero_add _).le.trans (weight_suffix suffix)
  | plain next => exact literal_cost next

theorem tokens_cost {toks : List Token} (tokens : Tokens inside ptr toks) :
    (toks.map cost).sum ≤ weight ptr := by
  induction tokens with
  | eos => exact Nat.zero_le _
  | cons reads _ ih =>
    have := reads_cost reads
    rw [map_cons, sum_cons]
    omega

/-- What a string tells of the characters 1 and 91 -/
def told (s : List Nat) : Nat := 2 * (s.count 1 + s.count 91)

/-- A string of the language, if there is one, that tells no more than the tokens. -/
def Cheap (l : Language Letter) (toks : List Token) : Prop :=
  (∃ s, Bytes s ∧ text s ∈ l) → ∃ s, Bytes s ∧ text s ∈ l ∧ told s ≤ (toks.map cost).sum

theorem told_append (a b : List Nat) : told (a ++ b) = told a + told b := by
  rw [told, told, told, count_append, count_append]
  omega

theorem bytes_append {a b : List Nat} : Bytes (a ++ b) ↔ Bytes a ∧ Bytes b := forall_mem_append

theorem told_char (c : Nat) : told [c] = cost (.char c) := by
  by_cases special : c = 1 ∨ c = 91
  · rw [cost, if_pos special]
    rcases special with rfl | rfl
    · rfl
    · rfl
  · obtain ⟨one, bracket⟩ := not_or.mp special
    rw [cost, if_neg special, told, count_singleton, count_singleton, if_neg (by simpa using one),
      if_neg (by simpa using bracket)]

variable {l l' : Language Letter} {toks toks' : List Token}

theorem cheap_nil (mem : [] ∈ l) : Cheap l toks := fun _ => ⟨[], nofun, mem, Nat.zero_le _⟩

theorem cheap_mul (first : Cheap l toks) (second : Cheap l' toks') :
    Cheap (l * l') (toks ++ toks') := by
  rintro ⟨_, bytes, mem⟩
  obtain ⟨a, b, rfl, mem, mem'⟩ := text_mem_mul.mp mem
  obtain ⟨bytes, bytes'⟩ := bytes_append.mp bytes
  obtain ⟨a, bytes, mem, cheap⟩ := first ⟨a, bytes, mem⟩
  obtain ⟨b, bytes', mem', cheap'⟩ := second ⟨b, bytes', mem'⟩
  refine ⟨a ++ b, bytes_append.mpr ⟨bytes, bytes'⟩, text_mem_mul.mpr ⟨a, b, rfl, mem, mem'⟩, ?_⟩
  rw [told_append, map_append, sum_append]
  exact Nat.add_le_add cheap cheap'

theorem cheap_any : Cheap (charsLang (BSet.Mem anyChar)) [.op .any] := fun _ =>
  ⟨[97], by simp [Bytes], text_mem_charsLang.mpr ⟨97, (mem_anyChar 97).mpr (by decide), rfl⟩,
    by decide⟩

theorem cheap_more (cheap : Cheap l toks) : Cheap l (toks ++ toks') := fun some => by
  obtain ⟨s, bytes, mem, le⟩ := cheap some
  refine ⟨s, bytes, mem, le.trans ?_⟩
  rw [map_append, sum_append]
  exact Nat.le_add_right _ _

theorem denotes_cheap {level : Level} (denotes : Denotes anyChar level toks l) : Cheap l toks := by
  induction denotes with
  | @char c =>
    rintro ⟨s, bytes, mem⟩
    obtain ⟨_, rfl, rfl⟩ := text_mem_charsLang.mp mem
    exact ⟨_, bytes, mem, by simp [told_char]⟩
  | chars =>
    rintro ⟨s, bytes, mem⟩
    obtain ⟨c, _, rfl⟩ := text_mem_charsLang.mp mem
    refine ⟨_, bytes, mem, ?_⟩
    rw [told_char]
    simp only [map_cons, map_nil, sum_cons, sum_nil, cost]
    split <;> decide
  | any => exact cheap_any
  | anyz => exact cheap_nil (.inr rfl)
  | @group toks l _ ih =>
    intro some
    obtain ⟨s, bytes, mem, le⟩ := ih some
    exact ⟨s, bytes, mem, by simpa [cost] using le⟩
  | atom _ ih => exact ih
  | repeated _ ih => exact ih
  | factors _ ih => exact ih
  | clos0 => exact cheap_nil (Language.nil_mem_kstar _)
  | clos1 _ ih => exact cheap_mul ih (cheap_nil (Language.nil_mem_kstar _))
  | quest => exact cheap_nil (.inr rfl)
  | cat _ _ ih ih' => exact cheap_mul ih ih'
  | alt _ _ ih ih' =>
    rintro ⟨s, bytes, mem | mem⟩
    · obtain ⟨s, bytes, mem, le⟩ := cheap_more ih ⟨s, bytes, mem⟩
      exact ⟨s, bytes, .inl mem, le⟩
    · obtain ⟨s, bytes, mem, le⟩ := ih' ⟨s, bytes, mem⟩
      exact ⟨s, bytes, .inr mem, le.trans (by simp [cost])⟩

/-- The expression has a string that tells no more than what was written. -/
theorem pattern_cheap {pattern : List Nat} (denotes : PatternDenotes anyChar pattern l)
    (some : ∃ s, Bytes s ∧ text s ∈ l) : ∃ s, Bytes s ∧ text s ∈ l ∧ told s ≤ weight pattern := by
  have lang {toks : List Token} (lang : PatternLang anyChar toks l) : Cheap l toks := by
    cases lang with
    | expr expr => exact denotes_cheap expr
    | line expr =>
      refine cheap_mul (denotes_cheap expr) fun _ =>
        ⟨[10], by simp [Bytes], text_mem_charsLang.mpr ⟨10, rfl, rfl⟩, by decide⟩
    | newline =>
      exact fun _ => ⟨[10], by simp [Bytes], text_mem_charsLang.mpr ⟨10, rfl, rfl⟩, by decide⟩
  cases denotes with
  | plain tokens is =>
    obtain ⟨s, bytes, mem, le⟩ := lang is some
    exact ⟨s, bytes, mem, le.trans (tokens_cost tokens)⟩
  | anchored tokens is =>
    obtain ⟨s, bytes, mem, le⟩ := lang is some
    exact ⟨s, bytes, mem, le.trans ((Nat.le_add_left _ _).trans (tokens_cost tokens))⟩

/-! ## What goes wrong -/

theorem no_denotes {pattern : List Nat} (none : Tokens false pattern []) :
    ¬PatternDenotes anyChar pattern l := by
  rintro (⟨tokens, lang⟩ | ⟨tokens, _⟩)
  · obtain rfl := none.unique tokens
    generalize is : ([] : List Token) = toks at lang
    cases lang with
    | expr expr =>
      obtain ⟨_, _, rfl, _⟩ := expr.starts
      cases is
    | line => exact absurd is.symm (by simp)
    | newline => cases is
  · cases none.unique tokens

theorem mem_sample (mem : c ∈ masks.flatMap Mask.sample) : .char c ∈ masks ∨ c = 97 := by
  obtain ⟨mask, mask_mem, mem⟩ := mem_flatMap.mp mem
  cases mask with
  | char => exact .inl (mem_singleton.mp mem ▸ mask_mem)
  | one => exact .inr (mem_singleton.mp mem)
  | _ => cases mem

theorem count_written (special : c = 1 ∨ c = 91) (masks : List Mask) :
    (masks.flatMap Mask.written).count c = masks.count (.char c) := by
  induction masks with
  | nil => rfl
  | cons mask masks ih =>
    rw [flatMap_cons, count_append, ih, count_cons, Nat.add_comm]
    congr 1
    cases mask with
    | char d =>
      rw [Mask.written, addNonSpace]
      rcases special with rfl | rfl <;> split <;> simp [count_cons]
    | one => rcases special with rfl | rfl <;> rfl
    | upTo => rcases special with rfl | rfl <;> rfl
    | string => rcases special with rfl | rfl <;> rfl

theorem written_ne_nil (some : masks ≠ []) : masks.flatMap Mask.written ≠ [] := by
  obtain ⟨mask, masks, rfl⟩ := exists_cons_of_ne_nil some
  rw [flatMap_cons]
  refine append_ne_nil_of_left_ne_nil ?_ _
  cases mask with
  | char c =>
    rw [Mask.written, addNonSpace]
    split <;> exact cons_ne_nil _ _
  | _ => exact cons_ne_nil _ _

/-- The masks with what they are to be written as: every string of the one is one of the other. -/
structure Intended (parts : List Mask) (l : Language Letter) : Prop where
  denotes : PatternDenotes anyChar (parts.flatMap Mask.written) l
  same : ∀ s, Bytes s → (text s ∈ l ↔ Stands parts s)
  chars : ∀ c, .char c ∈ parts → 1 ≤ c ∧ c ≤ 255
  units : ∀ n, .upTo n ∈ parts → n = 1

variable {parts : List Mask}

theorem bytes_sample (chars : ∀ c, .char c ∈ masks → 1 ≤ c ∧ c ≤ 255) :
    Bytes (masks.flatMap Mask.sample) := by
  intro c mem
  rcases mem_sample mem with mem | rfl
  · exact chars c mem
  · decide

/-- Where 1 quotes, there is a string that tells less than the mask. -/
theorem no_quote (intended : Intended parts l) (is : parts = front ++ .char 1 :: back) :
    back = [] := by
  have bytes := bytes_sample intended.chars
  obtain ⟨s, bytes, mem, cheap⟩ := pattern_cheap intended.denotes
    ⟨_, bytes, (intended.same _ bytes).mpr (stands_sample parts)⟩
  have stands := (intended.same s bytes).mp mem
  have ones := count_le stands 1
  have brackets := count_le stands 91
  rw [told, weight, count_written (.inr rfl), count_written (.inl rfl)] at cheap
  by_contra more
  have least : parts.count (.char 1) = front.count (.char 1) + (back.count (.char 1) + 1) := by
    rw [is, count_append, count_cons_self]
  split at cheap
  · next last =>
    have behind : 1 ∈ back.flatMap Mask.written := by
      have some := written_ne_nil more
      rw [is, flatMap_append, flatMap_cons,
        getLast?_append_of_ne_nil _ (append_ne_nil_of_right_ne_nil _ some),
        getLast?_append_of_ne_nil _ some] at last
      exact mem_of_getLast? last
    have := count_pos_iff.mpr behind
    rw [count_written (.inl rfl)] at this
    omega
  · omega

/-- Where a tab or newline is written, there is a string without it. -/
theorem no_ends (intended : Intended parts l) : .char 9 ∉ parts ∧ .char 10 ∉ parts := by
  cases found : parts.find? (fun mask => mask = .char 9 ∨ mask = .char 10) with
  | none =>
    have none := find?_eq_none.mp found
    exact ⟨fun mem => none _ mem (by decide), fun mem => none _ mem (by decide)⟩
  | some mask =>
    exfalso
    obtain ⟨end_, front, back, is, before⟩ := find?_eq_some_iff_append.mp found
    obtain ⟨c, rfl, blank⟩ : ∃ c, mask = .char c ∧ (c = 9 ∨ c = 10) := by
      rcases of_decide_eq_true end_ with rfl | rfl
      · exact ⟨9, rfl, .inl rfl⟩
      · exact ⟨10, rfl, .inr rfl⟩
    have ends (rest : List Nat) : Ends false (Mask.written (.char c) ++ rest) := by
      rcases blank with rfl | rfl
      · exact @Ends.blank _ 9 rest rfl (by decide) (by decide) rfl
      · exact @Ends.blank _ 10 rest rfl (by decide) (by decide) rfl
    have written : parts.flatMap Mask.written = front.flatMap Mask.written ++
        (Mask.written (.char c) ++ back.flatMap Mask.written) := by
      rw [is, flatMap_append, flatMap_cons]
    have denotes := intended.denotes
    rw [written] at denotes
    obtain rfl | some := eq_or_ne front []
    · exact no_denotes (.eos (ends _)) denotes
    have in_parts {mask : Mask} (mem : mask ∈ front) : mask ∈ parts := is ▸ mem_append_left _ mem
    have not_end {mask : Mask} (mem : mask ∈ front) : ¬(mask = .char 9 ∨ mask = .char 10) := by
      simpa using before mask mem
    obtain ⟨toks, l', tokens, denotes', texts⟩ := written_reads some (fun mask mem => by
        cases mask with
        | char d =>
          obtain ⟨low, small⟩ := intended.chars d (in_parts mem)
          exact ⟨low, small, fun same => not_end mem (.inl (congrArg _ same)),
            fun same => not_end mem (.inr (congrArg _ same))⟩
        | upTo n => exact intended.units n (in_parts mem)
        | _ => trivial)
      (fun first second same => by
        have quoted := no_quote intended (by rw [is, same, append_assoc, cons_append] :
          parts = first ++ .char 1 :: (second ++ .char c :: back))
        exact absurd quoted (by simp))
      (ends (back.flatMap Mask.written))
    obtain rfl := denotes.unique (.plain tokens (.expr (.factors denotes')))
    have bytes := bytes_sample fun d mem => intended.chars d (in_parts mem)
    have stands := (intended.same _ bytes).mp
      ((texts _).mpr ⟨fun y mem => (bytes y mem).2, stands_sample front⟩)
    have counted := count_le stands c
    have none : (front.flatMap Mask.sample).count c = 0 := by
      refine count_eq_zero.mpr fun mem => ?_
      rcases mem_sample mem with mem | rfl
      · exact not_end mem (blank.imp (congrArg _) (congrArg _))
      · exact absurd blank (by decide)
    rw [none, is, count_append, count_cons_self] at counted
    omega

/-- Masks that are read again as they were written. -/
structure Readable (masks : List Mask) : Prop where
  parts : ∀ mask ∈ masks, mask.Part
  no_quote : ∀ front back, masks = front ++ .char 1 :: back → back = []

theorem Readable.tail (readable : Readable (mask :: masks)) : Readable masks where
  parts := (forall_mem_cons.mp readable.parts).2
  no_quote := fun front back same => readable.no_quote (mask :: front) back (congrArg _ same)

/-- What the lexer makes of the beginning of a mask, and what it leaves of it -/
def Mask.ahead : Mask → Lookahead × List Nat
  | .char _ => (.char, [])
  | .one => (.any, [])
  | .upTo _ => (.any, [63])
  | .string => (.any, [42])

/-- The parser is in front of the masks. -/
structure Facing (p : DfaParse) (masks : List Mask) : Prop where
  charMap : p.charMap = thompsonChars
  outside : p.insideString = false
  ends : masks = [] → p.lookahead = .eos
  ahead : ∀ mask more, masks = mask :: more →
    p.lookahead = mask.ahead.1 ∧ p.exprPtr = mask.ahead.2 ++ more.flatMap Mask.written

variable {p : DfaParse} (fuel : Nat)

theorem lex_op {code : Lookahead} {rest : List Nat} (charMap : p.charMap = thompsonChars)
    (outside : p.insideString = false) (is : p.exprPtr = c :: rest)
    (op : (c, code) ∈ [(46, Lookahead.any), (63, .quest), (42, .clos0)]) : Dfa.lex (fuel + 1) p =
      some { p with lookCh := c, exprPtr := rest, lookahead := code } := by
  simp only [mem_cons, Prod.mk.injEq, not_mem_nil, or_false] at op
  rcases op with ⟨rfl, rfl⟩ | ⟨rfl, rfl⟩ | ⟨rfl, rfl⟩ <;>
    rw [Dfa.lex, lexSub, is, nextchar_plain (by decide)] <;> simp [outside, charMap] <;> rfl

theorem lex_facing (readable : Readable masks) (charMap : p.charMap = thompsonChars)
    (outside : p.insideString = false) (is : p.exprPtr = masks.flatMap Mask.written) :
    ∃ q, Dfa.lex (fuel + 1) p = some q ∧ Facing q masks := by
  cases masks with
  | nil =>
    refine ⟨{ p with lookCh := 0, exprPtr := [], lookahead := .eos }, ?_, charMap, outside,
      fun _ => rfl, fun _ _ none => absurd none.symm (cons_ne_nil _ _)⟩
    rw [Dfa.lex, lexSub, is]
    rfl
  | cons mask masks =>
    have facing {q : DfaParse} (charMap : q.charMap = thompsonChars)
        (outside : q.insideString = false) (ahead : q.lookahead = mask.ahead.1)
        (rest : q.exprPtr = mask.ahead.2 ++ masks.flatMap Mask.written) :
        Facing q (mask :: masks) :=
      ⟨charMap, outside, fun none => absurd none (cons_ne_nil _ _),
        by rintro _ _ ⟨⟩; exact ⟨ahead, rest⟩⟩
    rw [flatMap_cons] at is
    cases mask with
    | one | upTo | string =>
      exact ⟨_, lex_op fuel charMap outside is (.head _), facing charMap outside rfl rfl⟩
    | char c =>
      refine ⟨{ p with lookCh := c, exprPtr := masks.flatMap Mask.written, lookahead := .char }, ?_,
        facing charMap outside rfl rfl⟩
      have kept (q : DfaParse) (look : q.lookCh = c)
          (rest : q.exprPtr = masks.flatMap Mask.written) : mapLChar q = (.char, q) := by
        rw [mapLChar]
        split
        · next one =>
          obtain rfl := look.symm.trans one
          obtain rfl := readable.no_quote [] masks rfl
          rw [rest]
          rfl
        · rfl
      rw [Mask.written, addNonSpace] at is
      obtain ⟨low, small, ends⟩ := readable.parts _ mem_cons_self
      split at is
      · next regex =>
        obtain ⟨some, _, itself⟩ := regexChars_itself c regex
        rw [Dfa.lex, lexSub, is, cons_append, cons_append, nextchar_escaped itself]
        simp [some, kept]
      · next plain =>
        have other : ∀ d ∈ regexChars, c ≠ d := fun d member same => plain (same ▸ member)
        have none : thompsonChars.lookup c = none := by
          by_cases three : 3 ≤ c
          · exact (plain_of_notMem plain three ends).2.2.2.2.2
          · obtain rfl | rfl : c = 1 ∨ c = 2 := by omega
            · rfl
            · rfl
        rw [Dfa.lex, lexSub, is, cons_append, nextchar_plain (other 92 (by decide))]
        have some : c ≠ 0 := by omega
        simp [other 34 (by decide), other 91 (by decide), charMap, none, kept, outside, some]

theorem expr4_facing (facing : Facing p (mask :: masks)) : ∃ t p',
    (∀ q, Dfa.lex fuel p' = some q → expr4 (fuel + 1) p = some (some t, q)) ∧
      p'.charMap = thompsonChars ∧ p'.insideString = false ∧
        p'.exprPtr = mask.ahead.2 ++ masks.flatMap Mask.written := by
  obtain ⟨ahead, rest⟩ := facing.ahead _ _ rfl
  cases code : mask.ahead.1 with
  | char =>
    refine ⟨.leaf (p.position + 1) p.lookCh p.lookCh,
      { p with position := p.position + 1, lookahead := .char }, fun q lexed => ?_, facing.charMap,
      facing.outside, rest⟩
    rw [expr4, ahead, code]
    dsimp only
    rw [lexed]
    rfl
  | any =>
    refine ⟨(mkCset p.anyset p).1, (mkCset p.anyset p).2, fun q lexed => ?_, facing.charMap,
      facing.outside, rest⟩
    rw [expr4, ahead, code]
    dsimp only
    rw [lexed]
    rfl
  | _ => cases mask <;> cases code

/-- A mask is parsed as a factor. -/
theorem expr3_facing (readable : Readable (mask :: masks)) (facing : Facing p (mask :: masks)) :
    ∃ t q, expr3 (fuel + 3) p = some (some t, q) ∧ Facing q masks := by
  obtain ⟨t, p', run, charMap, outside, is⟩ := expr4_facing (fuel + 1) facing
  have op {c : Nat} {code : Lookahead} (is : p'.exprPtr = c :: masks.flatMap Mask.written)
      (quest : (c, code) ∈ [(63, Lookahead.quest), (42, .clos0)]) :
      ∃ t q, expr3 (fuel + 3) p = some (some t, q) ∧ Facing q masks := by
    have lexed := lex_op fuel charMap outside is (.tail _ quest)
    have next := @lex_facing masks
      { p' with lookCh := c, exprPtr := masks.flatMap Mask.written, lookahead := code } (fuel + 1)
      readable.tail charMap outside rfl
    obtain ⟨q, next, facing'⟩ := next
    simp only [mem_cons, Prod.mk.injEq, not_mem_nil, or_false] at quest
    rcases quest with ⟨rfl, rfl⟩ | ⟨rfl, rfl⟩
    · refine ⟨.or t .epsilon, q, ?_, facing'⟩
      rw [expr3, run _ lexed]
      dsimp only [bind_eq_bind, bind_some]
      rw [next]
      rfl
    · refine ⟨.star t, q, ?_, facing'⟩
      rw [expr3, run _ lexed]
      dsimp only [bind_eq_bind, bind_some]
      rw [next]
      rfl
  have plain (is : p'.exprPtr = masks.flatMap Mask.written) :
      ∃ t q, expr3 (fuel + 3) p = some (some t, q) ∧ Facing q masks := by
    obtain ⟨q, lexed, facing'⟩ := lex_facing fuel readable.tail charMap outside is
    refine ⟨t, q, ?_, facing'⟩
    rw [expr3, run _ lexed]
    dsimp only [bind_eq_bind, bind_some]
    cases masks with
    | nil => rw [facing'.ends rfl]
    | cons mask masks =>
      rw [(facing'.ahead _ _ rfl).1]
      cases mask <;> rfl
  cases mask with
  | char c => exact plain is
  | one => exact plain is
  | upTo n => exact op is mem_cons_self
  | string => exact op is (.tail _ mem_cons_self)

theorem factors_facing (readable : Readable masks) (facing : Facing p masks) (t : Tnode)
    (enough : masks.length + 4 ≤ fuel) :
    ∃ t' q, factors fuel t p = some (some t', q) ∧ q.lookahead = .eos := by
  induction masks generalizing p t fuel with
  | nil =>
    obtain ⟨fuel, rfl⟩ := Nat.exists_eq_add_of_le' enough
    have ends := facing.ends rfl
    refine ⟨t, p, ?_, ends⟩
    show factors (_ + 1) t p = _
    rw [factors, if_neg (by simp [ends])]
  | cons mask masks ih =>
    obtain ⟨fuel, rfl⟩ := Nat.exists_eq_add_of_le' enough
    obtain ⟨t2, q, parsed, facing'⟩ := expr3_facing (fuel + masks.length + 1) readable facing
    obtain ⟨t', q', more, ends⟩ :=
      ih (fuel + masks.length + 4) readable.tail facing' (.cat t t2) (by omega)
    refine ⟨t', q', ?_, ends⟩
    have starts : p.lookahead = .any ∨ p.lookahead = .char := by
      rw [(facing.ahead _ _ rfl).1]
      cases mask with
      | char => exact .inr rfl
      | _ => exact .inl rfl
    have : fuel + ((mask :: masks).length + 4) = fuel + masks.length + 4 + 1 := by
      rw [length_cons]
      omega
    rw [this, factors, if_pos (by rcases starts with is | is <;> simp [is]), parsed]
    exact more

theorem accepted_written (readable : Readable masks) (some_ : masks ≠ []) :
    Accepted (masks.flatMap Mask.written) := by
  obtain ⟨mask, masks, rfl⟩ := exists_cons_of_ne_nil some_
  let start : DfaParse := { dfaAnysetIncludesNl dfaInit with
    exprPtr := (mask :: masks).flatMap Mask.written, insideString := false }
  obtain ⟨p, lexed, facing⟩ :=
    @lex_facing (mask :: masks) start (masks.length + 6) readable rfl rfl rfl
  obtain ⟨t, q, parsed, facing'⟩ := expr3_facing (masks.length + 2) readable facing
  obtain ⟨t', q', more, ends⟩ :=
    factors_facing (masks.length + 5) readable.tail facing' t (by omega)
  have ahead : p.lookahead ≠ .startAnchor ∧ p.lookahead ≠ .endAnchor := by
    rw [(facing.ahead _ _ rfl).1]
    cases mask <;> exact ⟨nofun, nofun⟩
  have body : parseBody (masks.length + 7) p = some (some t', q') := by
    rw [parseBody, if_neg ahead.2, expr1, expr2, parsed]
    dsimp only [bind_eq_bind, bind_some]
    rw [more]
    dsimp only [bind_some]
    rw [alternatives, if_neg (by simp [ends])]
    dsimp only [bind_some]
    rw [if_neg (by simp [ends])]
  have rule : ∃ root q, parseRule (masks.length + 7) false p = some (.ok root, q) := by
    rw [parseRule, body]
    dsimp only [bind_eq_bind, bind_some]
    rw [if_pos ends]
    exact ⟨_, _, rfl⟩
  obtain ⟨root, q, rule⟩ := rule
  refine ⟨masks.length + 7, root, q, ?_⟩
  rw [doParse, lexed]
  dsimp only [bind_eq_bind, bind_some]
  rw [if_neg ahead.1, rule]

variable {kind : Kind} {spaceSplit : Bool} {src text_ : List Nat}

theorem squeeze_subset (src : List Nat) : ∀ c ∈ squeeze src, c ∈ src := by
  induction src with
  | nil => exact nofun
  | cons d src ih =>
    intro c mem
    rw [squeeze] at mem
    split at mem
    · exact .tail _ (ih c mem)
    · exact (mem_cons.mp mem).elim (· ▸ mem_cons_self) fun mem => .tail _ (ih c mem)

theorem taken_subset : ∀ c ∈ taken kind spaceSplit src, c ∈ src := by
  intro c mem
  refine (dropWhile_sublist (· = 32)).subset ?_
  cases spaceSplit with
  | true => exact (takeWhile_sublist _).subset mem
  | false =>
    cases kind with
    | term100 => exact squeeze_subset _ c mem
    | _ => exact mem

theorem MaskOf.char_mem (mask : MaskOf kind text_ masks) : ∀ c, .char c ∈ masks → c ∈ text_ := by
  induction mask with
  | @nil kind => match kind with
    | .term100 | .term101 | .term104 | .term105 false => exact nofun
    | .term105 true => simp [Kind.truncated]
  | char _ _ _ ih =>
    intro c mem
    rcases mem_cons.mp mem with same | mem
    · exact Mask.char.inj same ▸ mem_cons_self
    · exact .tail _ (ih c mem)
  | @operator kind d mask _ _ is _ ih =>
    intro c mem
    rcases mem_cons.mp mem with rfl | mem
    · cases kind <;> simp [Kind.meaning] at is <;> split at is <;> simp_all
    · exact .tail _ (ih c mem)
  | any _ _ ih =>
    intro c mem
    exact .tail _ (ih c (by simpa using mem))
  | number _ _ _ _ ih =>
    intro c mem
    exact .tail _ (mem_append_right _ (ih c (by simpa using mem)))

theorem split_spec : ∀ mask' ∈ mask.split, (∀ c, mask' = .char c → mask = .char c) ∧
    ∀ n, mask' = .upTo n → n = 1 := by
  cases mask with
  | upTo n =>
    intro mask' mem
    obtain ⟨-, rfl⟩ := mem_replicate.mp mem
    exact ⟨nofun, by rintro n ⟨⟩; rfl⟩
  | _ =>
    intro mask' mem
    obtain rfl := mem_singleton.mp mem
    exact ⟨fun c same => same, nofun⟩

/-- A term means its mask just when what is written of it is not cut off and nothing is quoted. -/
theorem term_meant_iff (bytes : Bytes src) (some_term : taken kind spaceSplit src ≠ [])
    (mask : MaskOf kind (taken kind spaceSplit src) masks) :
    Meant kind spaceSplit src masks ↔ Writable masks := by
  obtain ⟨writes, overflows⟩ := term_spec some_term mask
  have chars (c : Nat) (mem : .char c ∈ masks.flatMap Mask.split) : .char c ∈ masks := by
    obtain ⟨mask, mask_mem, mem⟩ := mem_flatMap.mp mem
    exact (split_spec _ mem).1 c rfl ▸ mask_mem
  have units (n : Nat) (mem : .upTo n ∈ masks.flatMap Mask.split) : n = 1 := by
    obtain ⟨mask, _, mem⟩ := mem_flatMap.mp mem
    exact (split_spec _ mem).2 n rfl
  have small (c : Nat) (mem : .char c ∈ masks.flatMap Mask.split) : 1 ≤ c ∧ c ≤ 255 :=
    bytes c (taken_subset c (mask.char_mem c (chars c mem)))
  constructor
  · rintro ⟨pattern, is, _, l, denotes, same⟩
    have numbers : Numbers masks := by
      by_contra large
      rw [overflows large] at is
      cases is
    obtain rfl := some.inj ((writes numbers).symm.trans is)
    have intended : Intended (masks.flatMap Mask.split) l :=
      ⟨denotes, fun s bytes => (same s bytes).trans stands_split.symm, small, units⟩
    obtain ⟨tab, newline⟩ := no_ends intended
    refine ⟨numbers, fun nothing => ?_, ⟨fun mem => tab ?_, fun mem => newline ?_⟩,
      fun front back => no_quote intended⟩
    · rw [written, nothing] at denotes
      exact no_denotes (.eos .eos) denotes
    · exact mem_flatMap.mpr ⟨_, mem, mem_singleton.mpr rfl⟩
    · exact mem_flatMap.mpr ⟨_, mem, mem_singleton.mpr rfl⟩
  · rintro ⟨numbers, some_written, ⟨tab, newline⟩, quoted⟩
    have readable : Readable (masks.flatMap Mask.split) := by
      refine ⟨fun mask mem => ?_, quoted⟩
      cases mask with
      | char c =>
        obtain ⟨low, le⟩ := small c mem
        exact ⟨low, le, fun is => tab (is ▸ chars c mem), fun is => newline (is ▸ chars c mem)⟩
      | upTo n => exact units n mem
      | _ => trivial
    obtain ⟨toks, l, tokens, denotes, texts⟩ := written_reads some_written readable.parts
      (fun front back is => ⟨quoted front back is, rfl⟩) .eos
    rw [append_nil] at tokens
    refine ⟨_, writes numbers, accepted_written readable some_written, l,
      .plain tokens (.expr (.factors denotes)), fun s bytes => (texts s).trans ?_⟩
    rw [Texts, stands_split]
    exact and_iff_right fun y mem => (bytes y mem).2

/-- `a#b?2`, with words apart -/
theorem term_meant_iff_words : Meant .term104 true [32, 97, 35, 98, 63, 50, 32, 99]
    [.char 97, .one, .char 98, .upTo 2] ↔ Writable [.char 97, .one, .char 98, .upTo 2] :=
  have number : MaskOf .term104 (63 :: ([50] ++ [])) [.upTo 2] :=
    .number (by decide) (by decide) rfl .nil
  term_meant_iff (by simp [Bytes]) (by decide)
    (.char rfl (by simp) (.operator rfl (.char rfl (by simp) number)))

/-- A tab ends the expression. -/
theorem not_term_meant : ¬Meant .term101 false [97, 9, 98] [.char 97, .char 9, .char 98] := by
  rintro ⟨pattern, is, _, l, denotes, same⟩
  obtain rfl := some.inj is
  have intended : Intended [.char 97, .char 9, .char 98] l := ⟨denotes, same, by simp, by simp⟩
  exact (no_ends intended).1 (by decide)

end Zebra.Masks
