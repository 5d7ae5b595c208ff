import Mathlib.Data.Nat.Bitwise

/-!
# Character sets

`bset.c`: a set of the characters 0 to 255 is a vector of bits.
-/

namespace Zebra.Dfa

/-- A `BSet` of the handle `mk_BSetHandle (255, 20)`: bit `c` tells whether `c` is a member. -/
abbrev BSet := Nat

/-- `charset->size`: the greatest character. -/
def charsetSize : Nat := 255

def resBSet : BSet := 0

def addBSet (dst : BSet) (member : Nat) : BSet := dst ||| 1 <<< member

def comBSet (dst : BSet) : BSet := (2 ^ (charsetSize + 1) - 1) ^^^ dst

/-- The loop of `trav_BSet` and `travi_BSet` with `i` characters left to look at; whole words
without or full of members, which they pass over in one step, are looked at bit by bit. -/
def scanBSet (wanted : Bool) (src : BSet) : Nat → Nat → Option Nat
  | 0, _ => none
  | i + 1, member =>
    if src.testBit member = wanted then some member else scanBSet wanted src i (member + 1)

/-- `trav_BSet`: the first member from `member` on. -/
def travBSet (src : BSet) (member : Nat) : Option Nat :=
  scanBSet true src (charsetSize + 1 - member) member

/-- `travi_BSet`: the first character from `member` on that is no member. -/
def traviBSet (src : BSet) (member : Nat) : Option Nat :=
  scanBSet false src (charsetSize + 1 - member) member

def BSet.Mem (src : BSet) (c : Nat) : Prop := c ≤ charsetSize ∧ src.testBit c = true

variable {member c : Nat}

theorem mem_addBSet {dst : BSet} (small : member ≤ charsetSize) :
    BSet.Mem (addBSet dst member) c ↔ BSet.Mem dst c ∨ c = member := by
  simp only [BSet.Mem, addBSet, Nat.testBit_or, Nat.one_shiftLeft, Nat.testBit_two_pow,
    Bool.or_eq_true, decide_eq_true_eq]
  constructor
  · rintro ⟨le, mem | rfl⟩
    · exact .inl ⟨le, mem⟩
    · exact .inr rfl
  · rintro (⟨le, mem⟩ | rfl)
    · exact ⟨le, .inl mem⟩
    · exact ⟨small, .inr rfl⟩

theorem mem_comBSet {dst : BSet} :
    BSet.Mem (comBSet dst) c ↔ c ≤ charsetSize ∧ ¬BSet.Mem dst c := by
  simp only [BSet.Mem, comBSet, Nat.testBit_xor, Nat.testBit_two_pow_sub_one]
  refine and_congr_right fun le => ?_
  have lt : c < charsetSize + 1 := by omega
  cases dst.testBit c <;> simp [lt, le]

/-- What the scan finds is the first character wanted; it finds none only if there is none. -/
theorem scanBSet_spec (wanted : Bool) (src : BSet) (i member : Nat) :
    match scanBSet wanted src i member with
    | some c => member ≤ c ∧ c < member + i ∧ src.testBit c = wanted ∧
        ∀ d, member ≤ d → d < c → src.testBit d ≠ wanted
    | none => ∀ d, member ≤ d → d < member + i → src.testBit d ≠ wanted := by
  induction i generalizing member with
  | zero =>
    simp only [scanBSet]
    intro d _ _
    omega
  | succ i ih =>
    simp only [scanBSet]
    by_cases hit : src.testBit member = wanted
    · rw [if_pos hit]
      refine ⟨le_rfl, by omega, hit, fun d _ _ => ?_⟩
      omega
    · rw [if_neg hit]
      have rest := ih (member + 1)
      cases found : scanBSet wanted src i (member + 1) with
      | none =>
        rw [found] at rest
        intro d le lt
        rcases Nat.eq_or_lt_of_le le with rfl | lt'
        · exact hit
        · exact rest d lt' (by omega)
      | some c =>
        rw [found] at rest
        obtain ⟨le, lt, c_hit, before⟩ := rest
        refine ⟨by omega, by omega, c_hit, fun d d_le d_lt => ?_⟩
        rcases Nat.eq_or_lt_of_le d_le with rfl | lt'
        · exact hit
        · exact before d lt' d_lt

variable {src : BSet}

theorem travBSet_some (found : travBSet src member = some c) :
    member ≤ c ∧ BSet.Mem src c ∧ ∀ d, member ≤ d → d < c → ¬BSet.Mem src d := by
  have spec := scanBSet_spec true src (charsetSize + 1 - member) member
  unfold travBSet at found
  rw [found] at spec
  obtain ⟨le, lt, hit, before⟩ := spec
  exact ⟨le, ⟨by omega, hit⟩, fun d d_le d_lt mem => before d d_le d_lt mem.2⟩

theorem travBSet_none (none : travBSet src member = none) : ∀ d, member ≤ d → ¬BSet.Mem src d := by
  have spec := scanBSet_spec true src (charsetSize + 1 - member) member
  unfold travBSet at none
  rw [none] at spec
  intro d le mem
  have small := mem.1
  exact spec d le (by omega) mem.2

theorem traviBSet_some (found : traviBSet src member = some c) :
    member ≤ c ∧ c ≤ charsetSize ∧ ¬BSet.Mem src c ∧
      ∀ d, member ≤ d → d < c → BSet.Mem src d := by
  have spec := scanBSet_spec false src (charsetSize + 1 - member) member
  unfold traviBSet at found
  rw [found] at spec
  obtain ⟨le, lt, miss, before⟩ := spec
  refine ⟨le, by omega, fun mem => ?_, fun d d_le d_lt => ⟨by omega, ?_⟩⟩
  · rw [mem.2] at miss
    exact absurd miss (by decide)
  · simpa using before d d_le d_lt

theorem traviBSet_none (none : traviBSet src member = none) :
    ∀ d, member ≤ d → d ≤ charsetSize → BSet.Mem src d := by
  have spec := scanBSet_spec false src (charsetSize + 1 - member) member
  unfold traviBSet at none
  rw [none] at spec
  intro d le small
  exact ⟨small, by simpa using spec d le (by omega)⟩

end Zebra.Dfa
