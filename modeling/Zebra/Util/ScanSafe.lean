import Zebra.Util.ScanString

/-!
# Scanning and the end of the argument

A scan goes from item to item.  What may go wrong at an item can be seen at its place: a brace that
is the last character, a range that is not closed, and codes for which the output table has no
place.
-/

namespace Zebra.CharMap

open Option

variable {sc : Scanner} {arg : List Nat}
variable {s c num : Nat}

theorem charAt_get (at' : arg[s]? = some c) : charAt arg s = .ok c := by
  rw [charAt, at']

theorem charAt_end : charAt arg arg.length = .ok 0 := by
  rw [charAt, List.getElem?_eq_none le_rfl]
  exact if_pos rfl

theorem charAt_beyond (behind : arg.length < s) : charAt arg s = .error .beyond := by
  rw [charAt, List.getElem?_eq_none (Nat.le_of_lt behind)]
  exact if_neg (Nat.ne_of_gt behind)

theorem get_of_lt {s : Nat} (less : s < arg.length) : ∃ c, arg[s]? = some c :=
  ⟨arg[s], List.getElem?_eq_getElem less⟩

theorem get_ne_zero (zeros : 0 ∉ arg) (at' : arg[s]? = some c) : c ≠ 0 :=
  fun zero => zeros (zero ▸ List.mem_of_getElem? at')

theorem escape_bounds (less : s < arg.length) :
    s ≤ (escape arg c s).2 ∧ (escape arg c s).2 ≤ arg.length := by
  unfold escape
  grind

theorem zebraPrimW_inside (zeros : 0 ∉ arg) (less : s < arg.length) :
    ∃ c next, zebraPrimW arg s = .ok (c, next) ∧ s < next ∧ next ≤ arg.length := by
  obtain ⟨c, at'⟩ := get_of_lt less
  rw [zebraPrimW, charAt_get at']
  simp only [Except.bind]
  by_cases backslash : c = 92
  swap
  · rw [if_neg backslash]
    exact ⟨c, s + 1, rfl, Nat.lt_succ_self s, less⟩
  rw [if_pos backslash]
  rcases Nat.lt_or_ge (s + 1) arg.length with more | last
  · obtain ⟨d, at''⟩ := get_of_lt more
    obtain ⟨low, high⟩ := escape_bounds (c := d) more
    rw [charAt_get at'']
    simp only
    rw [if_pos (get_ne_zero zeros at'')]
    exact ⟨_, _, rfl, low, high⟩
  · rw [show s + 1 = arg.length by omega, charAt_end]
    exact ⟨c, arg.length, rfl, less, le_rfl⟩

/-- The terminating zero is a character too, and the pointer goes behind it. -/
theorem zebraPrimW_end : zebraPrimW arg arg.length = .ok (0, arg.length + 1) := by
  rw [zebraPrimW, charAt_end]
  rfl

/-- The codes given to the `n` characters from `c` on, up to the first that cannot be converted -/
def RangeGives (sc : Scanner) (c n num code : Nat) : Prop :=
  ∃ k, k < n ∧ (∀ j, j ≤ k → sc.utf8 [c + j] ≠ none) ∧ code = num + k

def RangeConverts (sc : Scanner) (c n : Nat) : Prop := ∀ j, j < n → sc.utf8 [c + j] ≠ none

/-- The codes given are those from `num` on to the next one, `num'`. -/
structure Numbered (gives : Nat → Prop) (num num' : Nat) : Prop where
  le : num ≤ num'
  gives_iff : ∀ code, gives code ↔ num ≤ code ∧ code < num'

theorem add_spec (sc : Scanner) (chars : List Nat) (num : Nat) :
    (sc.utf8 chars = none ∧ sc.add chars num = .ok (.error num)) ∨
    (sc.utf8 chars ≠ none ∧ sc.inTable num = true ∧ sc.add chars num = .ok (.ok (num + 1))) ∨
    (sc.utf8 chars ≠ none ∧ sc.inTable num = false ∧ sc.add chars num = .error .table) := by
  unfold Scanner.add
  cases sc.utf8 chars with
  | none => exact .inl ⟨rfl, rfl⟩
  | some str =>
    cases sc.inTable num with
    | true => exact .inr (.inl ⟨some_ne_none _, rfl, rfl⟩)
    | false => exact .inr (.inr ⟨some_ne_none _, rfl, rfl⟩)

/-- The first character of a range that can be converted is given the first code, and the rest are
numbered from the next one on. -/
theorem rangeGives_succ (some : sc.utf8 [c] ≠ none) (n num code : Nat) :
    RangeGives sc c (n + 1) num code ↔ code = num ∨ RangeGives sc (c + 1) n (num + 1) code := by
  have shift (j : Nat) : c + 1 + j = c + (j + 1) := by omega
  constructor
  · rintro ⟨k, less, converts, same⟩
    cases k with
    | zero => exact .inl same
    | succ k =>
      refine .inr ⟨k, Nat.lt_of_succ_lt_succ less, fun j le => ?_, by omega⟩
      rw [shift]
      exact converts (j + 1) (Nat.succ_le_succ le)
  · rintro (same | ⟨k, less, converts, same⟩)
    · refine ⟨0, Nat.succ_pos n, fun j le => ?_, same⟩
      rwa [Nat.le_zero.mp le]
    · refine ⟨k + 1, Nat.succ_lt_succ less, fun j le => ?_, by omega⟩
      cases j with
      | zero => exact some
      | succ j =>
        rw [← shift]
        exact converts j (Nat.le_of_succ_le_succ le)

theorem rangeConverts_succ (some : sc.utf8 [c] ≠ none) (n : Nat) :
    RangeConverts sc c (n + 1) ↔ RangeConverts sc (c + 1) n := by
  have shift (j : Nat) : c + 1 + j = c + (j + 1) := by omega
  constructor
  · intro all j less
    rw [shift]
    exact all (j + 1) (Nat.succ_lt_succ less)
  · intro all j less
    cases j with
    | zero => exact some
    | succ j =>
      rw [← shift]
      exact all j (Nat.lt_of_succ_lt_succ less)

/-- A range is gone over to its end or to a character that cannot be converted, or a code for it has
no place in the output table. -/
theorem addRange_spec (sc : Scanner) (n c num : Nat) :
    (∃ num', Numbered (RangeGives sc c n num) num num' ∧
      (∀ code, RangeGives sc c n num code → sc.inTable code = true) ∧
      ((¬ RangeConverts sc c n ∧ addRange sc c n num = .ok (.error num')) ∨
        (RangeConverts sc c n ∧ addRange sc c n num = .ok (.ok num')))) ∨
    ((∃ code, RangeGives sc c n num code ∧ sc.inTable code = false) ∧
      addRange sc c n num = .error .table) := by
  induction n generalizing c num with
  | zero =>
    have none (code : Nat) : ¬ RangeGives sc c 0 num code :=
      fun ⟨k, less, _⟩ => Nat.not_lt_zero k less
    refine .inl ⟨num, ⟨le_rfl, fun code => iff_of_false (none code) (by omega)⟩,
      fun code gives => absurd gives (none code), .inr ⟨fun j less => ?_, rfl⟩⟩
    exact absurd less (Nat.not_lt_zero j)
  | succ n ih =>
    rw [addRange]
    rcases add_spec sc [c] num with ⟨none, added⟩ | ⟨some, fits, added⟩ | ⟨some, full, added⟩
    · rw [added]
      have nothing (code : Nat) : ¬ RangeGives sc c (n + 1) num code :=
        fun ⟨k, _, all, _⟩ => all 0 (Nat.zero_le k) none
      refine .inl ⟨num, ⟨le_rfl, fun code => iff_of_false (nothing code) (by omega)⟩,
        fun code gives => absurd gives (nothing code), .inl ⟨fun all => ?_, rfl⟩⟩
      exact all 0 (Nat.succ_pos n) none
    · rw [added]
      simp only [Except.bind]
      rw [rangeConverts_succ some]
      simp only [rangeGives_succ some]
      rcases ih (c + 1) (num + 1) with ⟨num', numbered, places, comes⟩ | ⟨⟨code, gives, full⟩, same⟩
      · refine .inl ⟨num', ⟨Nat.le_of_succ_le numbered.le, fun code => ?_⟩, ?_, comes⟩
        · rw [rangeGives_succ some, numbered.gives_iff]
          have := numbered.le
          omega
        · rintro code (rfl | gives)
          · exact fits
          · exact places code gives
      · exact .inr ⟨⟨code, .inr gives, full⟩, same⟩
    · rw [added]
      exact .inr ⟨⟨num, (rangeGives_succ some n num num).mpr (.inl rfl), full⟩, rfl⟩

/-- From `s` on, a group has these characters and is closed at `g`. -/
inductive Group (arg : List Nat) : Nat → List Nat → Nat → Prop where
  | close {s : Nat} : arg[s]? = some 41 → charAt arg (s - 1) ≠ .ok 92 → Group arg s [] s
  | char {s c next g : Nat} {chars : List Nat} : s < arg.length →
      (arg[s]? ≠ some 41 ∨ charAt arg (s - 1) = .ok 92) → zebraPrimW arg s = .ok (c, next) →
      Group arg next chars g → Group arg s (c :: chars) g

/-- A group is scanned within the argument and its array. -/
theorem scanGroup_spec (zeros : 0 ∉ arg) (short : arg.length < 512) (fuel s : Nat) (prim : List Nat)
    (inside : s ≤ arg.length) (enough : arg.length < s + fuel) (few : prim.length ≤ s) :
    (∃ chars g, scanGroup arg fuel s prim = .ok (some (prim ++ chars, g)) ∧ s ≤ g ∧ g < arg.length ∧
      ∀ chars' g', Group arg s chars' g' ↔ chars' = chars ∧ g' = g) ∨
    (scanGroup arg fuel s prim = .ok none ∧ ∀ chars g, ¬ Group arg s chars g) := by
  induction fuel generalizing s prim with
  | zero => omega
  | succ fuel ih =>
    rw [scanGroup]
    rcases Nat.eq_or_lt_of_le inside with rfl | less
    · -- the terminating zero is in front of any closing parenthesis
      have none : ∀ chars g, ¬ Group arg arg.length chars g := by
        intro chars g group
        cases group with
        | close at' =>
          rw [List.getElem?_eq_none le_rfl] at at'
          cases at'
        | char less => exact Nat.lt_irrefl _ less
      rw [charAt_end]
      simp only [Except.bind]
      refine .inr ⟨?_, none⟩
      have before : ∃ b, charAt arg (arg.length - 1) = .ok b := by
        rcases Nat.eq_zero_or_pos arg.length with zero | pos
        · rw [zero, Nat.zero_sub, ← zero]
          exact ⟨0, charAt_end⟩
        · obtain ⟨b, at'⟩ := @get_of_lt arg (arg.length - 1) (by omega)
          exact ⟨b, charAt_get at'⟩
      obtain ⟨b, at'⟩ := before
      rw [at']
      simp only
      rw [if_pos (.inl (by decide))]
      exact if_pos trivial
    · obtain ⟨c, at'⟩ := get_of_lt less
      obtain ⟨b, beforeAt⟩ := @get_of_lt arg (s - 1) (by omega)
      have before := charAt_get beforeAt
      rw [charAt_get at', before]
      simp only [Except.bind]
      by_cases more : c ≠ 41 ∨ b = 92
      · rw [if_pos more, if_neg (get_ne_zero zeros at'), if_neg (by omega)]
        obtain ⟨d, next, read, later, within⟩ := zebraPrimW_inside zeros less
        rw [read]
        simp only
        have goes : arg[s]? ≠ some 41 ∨ charAt arg (s - 1) = .ok 92 := by
          rw [at', before]
          exact more.imp (fun other same => other (some.inj same)) (congrArg Except.ok)
        have step : ∀ chars' g', Group arg s chars' g' ↔
            ∃ rest, chars' = d :: rest ∧ Group arg next rest g' := by
          intro chars' g'
          constructor
          · intro group
            cases group with
            | close closing noEscape =>
              exact goes.elim (fun other => absurd closing other) fun escaped =>
                absurd escaped noEscape
            | char _ _ read' rest =>
              obtain ⟨rfl, rfl⟩ := Prod.mk.inj (Except.ok.inj (read.symm.trans read'))
              exact ⟨_, rfl, rest⟩
          · rintro ⟨rest, rfl, group⟩
            exact .char less goes read group
        have length : (prim ++ [d]).length = prim.length + 1 := by
          rw [List.length_append, List.length_singleton]
        rcases ih next (prim ++ [d]) within (by omega) (by omega) with
          ⟨chars, g, scanned, le, inside', only⟩ | ⟨scanned, none⟩
        · refine .inl ⟨d :: chars, g, ?_, by omega, inside', fun chars' g' => ?_⟩
          · rw [scanned, List.append_assoc]
            rfl
          · rw [step]
            constructor
            · rintro ⟨rest, rfl, group⟩
              obtain ⟨rfl, rfl⟩ := (only rest g').mp group
              exact ⟨rfl, rfl⟩
            · rintro ⟨rfl, rfl⟩
              exact ⟨chars, rfl, (only chars g').mpr ⟨rfl, rfl⟩⟩
        · refine .inr ⟨scanned, fun chars' g' group => ?_⟩
          obtain ⟨rest, -, group'⟩ := (step chars' g').mp group
          exact none rest g' group'
      · push Not at more
        obtain ⟨rfl, noEscape⟩ := more
        rw [if_neg (by rintro (other | escaped); exact other rfl; exact noEscape escaped),
          if_neg (by omega)]
        have noEscape' : charAt arg (s - 1) ≠ .ok 92 := by
          rw [before]
          exact fun same => noEscape (Except.ok.inj same)
        refine .inl ⟨[], s, by rw [List.append_nil], le_rfl, less, fun chars' g' => ?_⟩
        constructor
        · intro group
          cases group with
          | close => exact ⟨rfl, rfl⟩
          | char _ goes =>
            exact goes.elim (fun other => absurd at' other) fun escaped =>
              absurd escaped noEscape'
        · rintro ⟨rfl, rfl⟩
          exact .close at' noEscape'

/-- At `s` is a range that is well formed. -/
def RangeAt (arg : List Nat) (s : Nat) : Prop :=
  ∃ b s₁ e s₂, s + 1 < arg.length ∧ zebraPrimW arg (s + 1) = .ok (b, s₁) ∧ arg[s₁]? = some 45 ∧
    zebraPrimW arg (s₁ + 1) = .ok (e, s₂) ∧ b < e ∧ arg[s₂]? = some 125

/-- At `s` is a range or a group that is not well formed. -/
def Malformed (arg : List Nat) (s : Nat) : Prop :=
  (arg[s]? = some 123 ∧ ¬ RangeAt arg s) ∨
    (arg[s]? = some 40 ∧ ∀ chars g, ¬ Group arg (s + 1) chars g)

/-- The scan of an item returns, and with -1 if the item is malformed. -/
def ItemSafe (sc : Scanner) (arg : List Nat) (s num : Nat) : Prop :=
  ∃ res, scanItem sc arg s num = .ok res ∧ (Malformed arg s → ∃ num', res = .error num')

/-- A code is given to a character or a string of an item, and stored if there is a table. -/
inductive Gives (sc : Scanner) (arg : List Nat) (s num : Nat) : Nat → Prop where
  | range {b s₁ e s₂ code : Nat} : arg[s]? = some 123 → zebraPrimW arg (s + 1) = .ok (b, s₁) →
      arg[s₁]? = some 45 → zebraPrimW arg (s₁ + 1) = .ok (e, s₂) → b < e →
      RangeGives sc b (e + 1 - b) num code → Gives sc arg s num code
  | group {chars : List Nat} {g : Nat} : arg[s]? = some 40 → Group arg (s + 1) chars g →
      sc.utf8 chars ≠ none → Gives sc arg s num num
  | single {c next : Nat} : arg[s]? ≠ some 123 → arg[s]? ≠ some 40 →
      zebraPrimW arg s = .ok (c, next) → sc.utf8 [c] ≠ none → Gives sc arg s num num

/-- A brace is not the last character; and a range behind it all whose characters can be converted
is closed. -/
structure RangeOk (sc : Scanner) (arg : List Nat) (s : Nat) : Prop where
  more : s + 1 < arg.length
  closed : ∀ b s₁ e s₂, zebraPrimW arg (s + 1) = .ok (b, s₁) → arg[s₁]? = some 45 →
    zebraPrimW arg (s₁ + 1) = .ok (e, s₂) → b < e → RangeConverts sc b (e + 1 - b) →
    arg[s₂]? = some 125

/-- A range is as it must be, and the codes of the item have places in the output table. -/
structure ItemOk (sc : Scanner) (arg : List Nat) (s num : Nat) : Prop where
  range : arg[s]? = some 123 → RangeOk sc arg s
  codes : ∀ code, Gives sc arg s num code → sc.inTable code = true

/-- A scan of an item stops for a reason, or returns and has numbered what it has found; it does not
go back, and is as it must be unless it passes over what is malformed. -/
def Outcome (res : Except ScanStop (Scanned (Nat × Nat))) (s num len : Nat) (malformed ok : Prop)
    (gives : Nat → Prop) : Prop :=
  (∃ stop, res = .error stop ∧ stop ≠ .fuel ∧ ¬ ok) ∨
  (∃ num', res = .ok (.error num') ∧ ok ∧ Numbered gives num num') ∨
  ∃ next num', res = .ok (.ok (next, num')) ∧ s < next ∧ next ≤ len + 1 ∧
    Numbered gives num num' ∧ ((¬ malformed ∧ ok ∧ next ≤ len) ∨ (malformed ∧ ¬ ok))

theorem numbered_none {gives : Nat → Prop} (none : ∀ code, ¬ gives code) : Numbered gives num num :=
  ⟨le_rfl, fun code => iff_of_false (none code) (by omega)⟩

theorem numbered_one {gives : Nat → Prop} (one : ∀ code, gives code ↔ code = num) :
    Numbered gives num (num + 1) :=
  ⟨Nat.le_succ num, fun code => (one code).trans (by omega)⟩

/-- The characters of a string are added with one code. -/
theorem add_outcome (sc : Scanner) (chars : List Nat) {next len : Nat} {malformed ok : Prop}
    {gives : Nat → Prop} (formed : ¬ malformed) (later : s < next) (within : next ≤ len)
    (one : ∀ code, gives code ↔ sc.utf8 chars ≠ none ∧ code = num)
    (same : ok ↔ ∀ code, gives code → sc.inTable code = true) :
    Outcome ((sc.add chars num).map fun added => added.map fun num => (next, num)) s num len
      malformed ok gives := by
  rcases add_spec sc chars num with ⟨none, added⟩ | ⟨some, fits, added⟩ | ⟨some, full, added⟩
  · rw [added]
    have nothing (code : Nat) : ¬ gives code := fun given => ((one code).mp given).1 none
    exact .inr (.inl ⟨num, rfl, same.mpr fun code given => absurd given (nothing code),
      numbered_none nothing⟩)
  · rw [added]
    have given (code : Nat) : gives code ↔ code = num := by
      rw [one]
      exact and_iff_right some
    have ok' : ok := same.mpr fun code gives => (given code).mp gives ▸ fits
    exact .inr (.inr ⟨next, num + 1, rfl, later, Nat.le_succ_of_le within, numbered_one given,
      .inl ⟨formed, ok', within⟩⟩)
  · rw [added]
    refine .inl ⟨.table, rfl, by decide, fun ok => ?_⟩
    have wrong := same.mp ok num ((one num).mpr ⟨some, rfl⟩)
    rw [full] at wrong
    cases wrong

theorem range_outcome (zeros : 0 ∉ arg) (brace : arg[s]? = some 123) (sc : Scanner) :
    Outcome (scanRange sc arg (s + 1) num) s num arg.length (¬ RangeAt arg s) (ItemOk sc arg s num)
      (Gives sc arg s num) := by
  rw [scanRange]
  have less : s < arg.length := (List.getElem?_eq_some_iff.mp brace).1
  rcases Nat.lt_or_ge (s + 1) arg.length with more | last
  swap
  · rw [show s + 1 = arg.length by omega, zebraPrimW_end]
    simp only [Except.bind]
    rw [charAt_beyond (Nat.lt_succ_self _)]
    refine .inl ⟨.beyond, rfl, by decide, fun ok => ?_⟩
    have := (ok.range brace).more
    omega
  obtain ⟨b, s₁, first, later₁, within₁⟩ := zebraPrimW_inside zeros more
  have only₁ {b' s₁' : Nat} (read : zebraPrimW arg (s + 1) = .ok (b', s₁')) : b' = b ∧ s₁' = s₁ :=
    Prod.mk.inj (Except.ok.inj (read.symm.trans first))
  rw [first]
  simp only [Except.bind]
  -- where there is no range, no code is given
  have noRange (other : ∀ b' s₁' e s₂, zebraPrimW arg (s + 1) = .ok (b', s₁') →
      arg[s₁']? = some 45 → zebraPrimW arg (s₁' + 1) = .ok (e, s₂) → ¬ b' < e) :
      Outcome (.ok (.error num)) s num arg.length (¬ RangeAt arg s) (ItemOk sc arg s num)
        (Gives sc arg s num) := by
    have none (code : Nat) : ¬ Gives sc arg s num code := by
      intro gives
      cases gives with
      | range _ one hyphen two above => exact other _ _ _ _ one hyphen two above
      | group paren => exact absurd (brace.symm.trans paren) (by decide)
      | single noBrace => exact noBrace brace
    refine .inr (.inl ⟨num, rfl, ⟨fun _ => ⟨more, fun b' s₁' e s₂ one hyphen two above => ?_⟩,
      fun code gives => absurd gives (none code)⟩, numbered_none none⟩)
    exact absurd above (other b' s₁' e s₂ one hyphen two)
  rcases Nat.eq_or_lt_of_le within₁ with rfl | less₁
  · rw [charAt_end]
    refine noRange fun b' s₁' e s₂ one hyphen _ => ?_
    obtain ⟨rfl, rfl⟩ := only₁ one
    rw [List.getElem?_eq_none le_rfl] at hyphen
    cases hyphen
  obtain ⟨c, at'⟩ := get_of_lt less₁
  rw [charAt_get at']
  simp only
  by_cases hyphen : c = 45
  swap
  · rw [if_pos hyphen]
    refine noRange fun b' s₁' e s₂ one hyphen' _ => ?_
    obtain ⟨rfl, rfl⟩ := only₁ one
    rw [at'] at hyphen'
    exact absurd (some.inj hyphen') hyphen
  subst hyphen
  rw [if_neg (by decide)]
  -- the second character may be the terminating zero, which is not above the first
  have second : ∃ e s₂, zebraPrimW arg (s₁ + 1) = .ok (e, s₂) ∧ s₁ + 1 < s₂ ∧
      (b < e → s₂ ≤ arg.length) := by
    rcases Nat.lt_or_ge (s₁ + 1) arg.length with more' | last
    · obtain ⟨e, s₂, read, later, within⟩ := zebraPrimW_inside zeros more'
      exact ⟨e, s₂, read, later, fun _ => within⟩
    · rw [show s₁ + 1 = arg.length by omega]
      exact ⟨0, arg.length + 1, zebraPrimW_end, Nat.lt_succ_self _,
        fun above => absurd above (Nat.not_lt_zero b)⟩
  obtain ⟨e, s₂, read₂, later₂, within₂⟩ := second
  have only {b' s₁' e' s₂' : Nat} (one : zebraPrimW arg (s + 1) = .ok (b', s₁'))
      (two : zebraPrimW arg (s₁' + 1) = .ok (e', s₂')) : b' = b ∧ s₁' = s₁ ∧ e' = e ∧ s₂' = s₂ := by
    obtain ⟨rfl, rfl⟩ := only₁ one
    obtain ⟨rfl, rfl⟩ := Prod.mk.inj (Except.ok.inj (two.symm.trans read₂))
    exact ⟨rfl, rfl, rfl, rfl⟩
  rw [read₂]
  simp only
  by_cases above : b < e
  swap
  · rw [if_pos (Nat.le_of_not_lt above)]
    refine noRange fun b' s₁' e' s₂' one _ two above' => ?_
    obtain ⟨rfl, rfl, rfl, rfl⟩ := only one two
    exact above above'
  rw [if_neg (Nat.not_le_of_lt above)]
  have gives_iff (code : Nat) : Gives sc arg s num code ↔ RangeGives sc b (e + 1 - b) num code := by
    constructor
    · intro gives
      cases gives with
      | range _ one _ two _ given =>
        obtain ⟨rfl, rfl, rfl, rfl⟩ := only one two
        exact given
      | group paren => exact absurd (brace.symm.trans paren) (by decide)
      | single noBrace => exact absurd brace noBrace
    · exact fun given => .range brace first at' read₂ above given
  have ok_iff : ItemOk sc arg s num ↔ (RangeConverts sc b (e + 1 - b) → arg[s₂]? = some 125) ∧
      ∀ code, RangeGives sc b (e + 1 - b) num code → sc.inTable code = true := by
    constructor
    · intro ok
      exact ⟨(ok.range brace).closed b s₁ e s₂ first at' read₂ above,
        fun code given => ok.codes code ((gives_iff code).mpr given)⟩
    · rintro ⟨closed, places⟩
      refine ⟨fun _ => ⟨more, fun b' s₁' e' s₂' one _ two _ => ?_⟩,
        fun code gives => places code ((gives_iff code).mp gives)⟩
      obtain ⟨rfl, rfl, rfl, rfl⟩ := only one two
      exact closed
  have at_iff : RangeAt arg s ↔ arg[s₂]? = some 125 := by
    constructor
    · rintro ⟨b', s₁', e', s₂', -, one, -, two, -, closed⟩
      obtain ⟨rfl, rfl, rfl, rfl⟩ := only one two
      exact closed
    · exact fun closed => ⟨b, s₁, e, s₂, more, first, at', read₂, above, closed⟩
  rcases addRange_spec sc (e + 1 - b) b num with
    ⟨num', given, places, comes⟩ | ⟨⟨code, given, full⟩, added⟩
  · have numbered : Numbered (Gives sc arg s num) num num' :=
      ⟨given.le, fun code => (gives_iff code).trans (given.gives_iff code)⟩
    rcases comes with ⟨stops, added⟩ | ⟨converts, added⟩
    · rw [added]
      exact .inr (.inl ⟨num', rfl, ok_iff.mpr ⟨fun converts => absurd converts stops, places⟩,
        numbered⟩)
    · rw [added]
      have le := within₂ above
      refine .inr (.inr ⟨s₂ + 1, num', rfl, by omega, Nat.succ_le_succ le, numbered, ?_⟩)
      rw [at_iff, ok_iff]
      by_cases closed : arg[s₂]? = some 125
      · refine .inl ⟨not_not.mpr closed, ⟨fun _ => closed, places⟩, ?_⟩
        exact (List.getElem?_eq_some_iff.mp closed).1
      · exact .inr ⟨closed, fun ok => closed (ok.1 converts)⟩
  · rw [added]
    refine .inl ⟨.table, rfl, by decide, fun ok => ?_⟩
    have wrong := (ok_iff.mp ok).2 code given
    rw [full] at wrong
    cases wrong

/-- The scan of an item comes to what must hold there. -/
theorem scanItem_outcome (zeros : 0 ∉ arg) (short : arg.length < 512) {s num : Nat}
    (less : s < arg.length) (sc : Scanner) :
    Outcome (scanItem sc arg s num) s num arg.length (Malformed arg s) (ItemOk sc arg s num)
      (Gives sc arg s num) := by
  obtain ⟨c, at'⟩ := get_of_lt less
  rw [scanItem, charAt_get at']
  simp only [Except.bind]
  by_cases brace : c = 123
  · subst brace
    rw [if_pos rfl]
    have formed : Malformed arg s ↔ ¬ RangeAt arg s := by
      rw [Malformed, at']
      simp
    rw [Outcome, formed]
    exact range_outcome zeros at' sc
  rw [if_neg brace]
  have noBrace : arg[s]? ≠ some 123 := by
    rw [at']
    exact fun same => brace (some.inj same)
  have ok_iff : ItemOk sc arg s num ↔ ∀ code, Gives sc arg s num code → sc.inTable code = true :=
    ⟨ItemOk.codes, fun codes => ⟨fun other => absurd other noBrace, codes⟩⟩
  by_cases paren : c = 40
  · subst paren
    rw [if_pos rfl]
    have formed : Malformed arg s ↔ ∀ chars g, ¬ Group arg (s + 1) chars g := by
      rw [Malformed, at']
      simp
    have gives_iff (code : Nat) : Gives sc arg s num code ↔
        ∃ chars g, Group arg (s + 1) chars g ∧ sc.utf8 chars ≠ none ∧ code = num := by
      constructor
      · intro gives
        cases gives with
        | range other => exact absurd other noBrace
        | group _ group some => exact ⟨_, _, group, some, rfl⟩
        | single _ other => exact absurd at' other
      · rintro ⟨chars, g, group, some, rfl⟩
        exact .group at' group some
    rw [Outcome, formed]
    rcases scanGroup_spec zeros short (arg.length + 1) (s + 1) [] less
      (by omega) (Nat.zero_le _) with
      ⟨chars, g, scanned, le, inside, only⟩ | ⟨scanned, none⟩
    · rw [scanned]
      refine add_outcome sc ([] ++ chars) (fun none => ?_) (by omega) inside (fun code => ?_) ok_iff
      · exact none chars g ((only chars g).mpr ⟨rfl, rfl⟩)
      · rw [gives_iff]
        constructor
        · rintro ⟨chars', g', group, some, same⟩
          obtain ⟨rfl, rfl⟩ := (only chars' g').mp group
          exact ⟨some, same⟩
        · rintro ⟨some, same⟩
          exact ⟨chars, g, (only chars g).mpr ⟨rfl, rfl⟩, some, same⟩
    · rw [scanned]
      have nothing (code : Nat) : ¬ Gives sc arg s num code := by
        rw [gives_iff]
        exact fun ⟨chars, g, group, _⟩ => none chars g group
      exact .inr (.inl ⟨num, rfl, ok_iff.mpr fun code gives => absurd gives (nothing code),
        numbered_none nothing⟩)
  · rw [if_neg paren]
    have noParen : arg[s]? ≠ some 40 := by
      rw [at']
      exact fun same => paren (some.inj same)
    obtain ⟨d, next, read, later, within⟩ := zebraPrimW_inside zeros less
    rw [read]
    refine add_outcome sc [d] (fun malformed => ?_) later within (fun code => ?_) ok_iff
    · exact malformed.elim (fun range => noBrace range.1) fun group => noParen group.1
    · constructor
      · intro gives
        cases gives with
        | range other => exact absurd other noBrace
        | group other => exact absurd other noParen
        | single _ _ read' some =>
          obtain ⟨rfl, rfl⟩ := Prod.mk.inj (Except.ok.inj (read.symm.trans read'))
          exact ⟨some, rfl⟩
      · rintro ⟨some, rfl⟩
        exact .single noBrace noParen read some

/-- From one place and code, the scan gets to another. -/
inductive ScanReached (sc : Scanner) (arg : List Nat) : Nat → Nat → Nat → Nat → Prop where
  | here {s num : Nat} : ScanReached sc arg s num s num
  | next {s num s₁ num₁ s' num' : Nat} : s < arg.length →
      scanItem sc arg s num = .ok (.ok (s₁, num₁)) → ScanReached sc arg s₁ num₁ s' num' →
      ScanReached sc arg s num s' num'

/-- The scan of a directive returns, and each malformed item it comes to is reported as an error. -/
def ScanSafe (sc : Scanner) (arg : List Nat) (num : Nat) : Prop :=
  (∃ res, scanDirective sc arg num = .ok res) ∧
    ∀ s n, ScanReached sc arg (scanStart arg) num s n → s < arg.length → ItemSafe sc arg s n

theorem itemSafe_iff (zeros : 0 ∉ arg) (short : arg.length < 512)
    (less : s < arg.length) (sc : Scanner) : ItemSafe sc arg s num ↔ ItemOk sc arg s num := by
  unfold ItemSafe
  rcases @scanItem_outcome _ zeros short _ num less sc with
    ⟨stop, same, -, bad⟩ | ⟨num', same, ok, -⟩ | ⟨next, num', same, -, -, -, good⟩
  · rw [same]
    refine iff_of_false ?_ bad
    rintro ⟨res, other, -⟩
    cases other
  · rw [same]
    exact iff_of_true ⟨.error num', rfl, fun _ => ⟨num', rfl⟩⟩ ok
  · rw [same]
    rcases good with ⟨formed, ok, -⟩ | ⟨malformed, bad⟩
    · exact iff_of_true ⟨_, rfl, fun malformed => absurd malformed formed⟩ ok
    · refine iff_of_false ?_ bad
      rintro ⟨res, other, reported⟩
      obtain ⟨num'', error⟩ := reported malformed
      rw [error] at other
      cases other

/-- The rounds of the loop are as many as there are places at most. -/
theorem scanLoop_ends (zeros : 0 ∉ arg) (short : arg.length < 512) (sc : Scanner) (fuel s num : Nat)
    (inside : s ≤ arg.length + 1) (enough : arg.length + 2 ≤ s + fuel) :
    scanLoop sc arg fuel s num ≠ .error .fuel := by
  induction fuel generalizing s num with
  | zero => omega
  | succ fuel ih =>
    rw [scanLoop]
    rcases Nat.lt_trichotomy s arg.length with less | rfl | more
    · obtain ⟨c, at'⟩ := get_of_lt less
      rw [charAt_get at']
      simp only [Except.bind]
      rw [if_neg (get_ne_zero zeros at')]
      rcases @scanItem_outcome _ zeros short _ num less sc with
        ⟨stop, same, other, -⟩ | ⟨num', same, -⟩ | ⟨next, num', same, later, within, -⟩
      · rw [same]
        exact fun stops => other (Except.error.inj stops)
      · rw [same]
        intro stops
        cases stops
      · rw [same]
        exact ih next num' within (by omega)
    · rw [charAt_end]
      intro stops
      cases stops
    · rw [charAt_beyond more]
      intro stops
      cases stops

theorem scanLoop_returns (zeros : 0 ∉ arg) (short : arg.length < 512) (sc : Scanner)
    (fuel s num : Nat) (inside : s ≤ arg.length) (enough : arg.length + 2 ≤ s + fuel)
    (all : ∀ s' n, ScanReached sc arg s num s' n → s' < arg.length → ItemOk sc arg s' n) :
    ∃ res, scanLoop sc arg fuel s num = .ok res := by
  induction fuel generalizing s num with
  | zero => omega
  | succ fuel ih =>
    rw [scanLoop]
    rcases Nat.eq_or_lt_of_le inside with rfl | less
    · rw [charAt_end]
      exact ⟨.ok num, rfl⟩
    · obtain ⟨c, at'⟩ := get_of_lt less
      rw [charAt_get at']
      simp only [Except.bind]
      rw [if_neg (get_ne_zero zeros at')]
      have own := all s num .here less
      rcases @scanItem_outcome _ zeros short _ num less sc with
        ⟨stop, -, -, bad⟩ | ⟨num', same, -⟩ | ⟨next, num', same, later, -, -, good⟩
      · exact absurd own bad
      · rw [same]
        exact ⟨.error num', rfl⟩
      · rw [same]
        obtain ⟨-, -, within⟩ := good.resolve_right fun bad => bad.2 own
        exact ih next num' within (by omega) fun s' n reached =>
          all s' n (.next less same reached)

/-- The number behind a scan is the one in front of it or is next to a code given, and is above all
codes given. -/
theorem scanLoop_numbers (zeros : 0 ∉ arg) (short : arg.length < 512) (sc : Scanner)
    (fuel s num : Nat) {res : Scanned Nat} (returns : scanLoop sc arg fuel s num = .ok res) :
    num ≤ res.num ∧
    (res.num = num ∨ ∃ s' n code, ScanReached sc arg s num s' n ∧ s' < arg.length ∧
      Gives sc arg s' n code ∧ res.num = code + 1) ∧
    ∀ s' n code, ScanReached sc arg s num s' n → s' < arg.length → Gives sc arg s' n code →
      code < res.num := by
  induction fuel generalizing s num with
  | zero => cases returns
  | succ fuel ih =>
    rw [scanLoop] at returns
    -- behind the argument there are no items
    have nothing (behind : arg.length ≤ s) (s' n code : Nat)
        (reached : ScanReached sc arg s num s' n) (less : s' < arg.length) : code < res.num := by
      cases reached with
      | here => exact absurd less (Nat.not_lt_of_le behind)
      | next inside => exact absurd inside (Nat.not_lt_of_le behind)
    rcases Nat.lt_trichotomy s arg.length with less | rfl | more
    swap
    · rw [charAt_end] at returns
      cases returns
      exact ⟨le_rfl, .inl rfl,
        fun s' n code reached less _ => nothing le_rfl s' n code reached less⟩
    swap
    · rw [charAt_beyond more] at returns
      cases returns
    obtain ⟨c, at'⟩ := get_of_lt less
    rw [charAt_get at'] at returns
    simp only [Except.bind] at returns
    rw [if_neg (get_ne_zero zeros at')] at returns
    -- the item itself numbers up to `num'`, which the scan does not go below
    have own {num' : Nat} (numbered : Numbered (Gives sc arg s num) num num') :
        num' = num ∨ ∃ code, Gives sc arg s num code ∧ num' = code + 1 := by
      rcases Nat.eq_or_lt_of_le numbered.le with same | more
      · exact .inl same.symm
      · refine .inr ⟨num' - 1, (numbered.gives_iff _).mpr ⟨?_, ?_⟩, ?_⟩ <;> omega
    rcases @scanItem_outcome _ zeros short _ num less sc with
      ⟨stop, same, -⟩ | ⟨num', same, -, numbered⟩ | ⟨next, num', same, -, -, numbered, -⟩
    · rw [same] at returns
      cases returns
    · rw [same] at returns
      cases returns
      refine ⟨numbered.le, (own numbered).imp_right fun ⟨code, gives, next⟩ =>
        ⟨s, num, code, .here, less, gives, next⟩, fun s' n code reached _ gives => ?_⟩
      cases reached with
      | here => exact ((numbered.gives_iff code).mp gives).2
      | next _ other =>
        rw [same] at other
        cases other
    · rw [same] at returns
      obtain ⟨le, last, above⟩ := ih next num' returns
      refine ⟨numbered.le.trans le, ?_, fun s' n code reached inside gives => ?_⟩
      · rcases last with last | ⟨s', n, code, reached, inside, gives, last⟩
        · rw [last]
          exact (own numbered).imp_right fun ⟨code, gives, next⟩ =>
            ⟨s, num, code, .here, less, gives, next⟩
        · exact .inr ⟨s', n, code, .next less same reached, inside, gives, last⟩
      · cases reached with
        | here => exact Nat.lt_of_lt_of_le ((numbered.gives_iff code).mp gives).2 le
        | next _ other reached =>
          rw [same] at other
          cases other
          exact above s' n code reached inside gives

/-- Behind the codes of a `lowercase` directive there are places for the space and the unknown
character of the uppercase letters. -/
def Room (sc : Scanner) (code : Nat) : Prop := sc.lowercase = true → code + 1 + chrSpaceCode < 256

/-- Characters that are their own bytes, for the first directive of a map -/
def plainScanner : Scanner where
  utf8 := some
  base := some 0
  lowercase := true

end Zebra.CharMap
