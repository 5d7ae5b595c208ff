import Zebra.Dfa.Compiler
import Zebra.Dfa.Spelling

/-!
# The characters of a term

How `rpnsearch.c` writes the characters of a term in an expression for the dictionary: those that
have a meaning of their own there are escaped.
-/

namespace Zebra.Search

open List Dfa

def regexChars : List Nat := [32, 94, 91, 93, 40, 41, 124, 46, 42, 43, 63, 33, 34, 36, 92]

/-- `add_non_space`, of one character for which there is no mapping -/
def addNonSpace (c : Nat) : List Nat := if c ∈ regexChars then [92, c] else [c]

/-- What `.` stands for in the expressions of the dictionary. -/
def anyChar : BSet := (dfaAnysetIncludesNl dfaInit).anyset

def Bytes (s : List Nat) : Prop := ∀ y ∈ s, 1 ≤ y ∧ y ≤ 255

theorem regexChars_itself :
    ∀ c ∈ regexChars, c ≠ 0 ∧ c ≠ 1 ∧ c ∉ [13, 10, 9, 110, 116, 114, 102] := by
  decide

theorem thompsonChars_regexChars : ∀ p ∈ thompsonChars, p.1 ∈ regexChars ∨ p.1 = 9 ∨ p.1 = 10 := by
  decide

theorem plain_of_notMem {c : Nat} (plain : c ∉ regexChars) (range : 3 ≤ c)
    (ends : c ≠ 9 ∧ c ≠ 10) : Plain c := by
  have other : ∀ d ∈ regexChars, c ≠ d := fun d member same => plain (same ▸ member)
  refine ⟨by omega, by omega, other 34 (by decide), other 91 (by decide), other 92 (by decide), ?_⟩
  apply lookup_eq_none_iff.mpr
  intro p member
  rw [bne_iff_ne]
  obtain regex | tab | newline := thompsonChars_regexChars p member
  · exact other _ regex
  · exact tab ▸ ends.1
  · exact newline ▸ ends.2

variable {anyset : BSet} {c : Nat}

theorem part_addNonSpace (range : 3 ≤ c) (ends : c ≠ 9 ∧ c ≠ 10) :
    Part anyset .atom (addNonSpace c) (· = [c]) := by
  rw [addNonSpace]
  split
  next regex =>
    obtain ⟨some, plain, itself⟩ := regexChars_itself c regex
    exact .escaped some plain itself
  next plain => exact .char (plain_of_notMem plain range ends)

theorem mem_anyChar (x : Nat) : BSet.Mem anyChar x ↔ x ≤ 255 := by
  have every : BSet.Mem anyChar x ↔ BSet.Mem dfaInit.anyset x ∨ x = 10 := mem_addBSet (by decide)
  have most : BSet.Mem dfaInit.anyset x ↔ x ≤ charsetSize ∧ ¬ BSet.Mem (addBSet resBSet 10) x :=
    mem_comBSet
  have newline : BSet.Mem (addBSet resBSet 10) x ↔ BSet.Mem resBSet x ∨ x = 10 :=
    mem_addBSet (by decide)
  have none : ¬ BSet.Mem resBSet x := fun member => by simp [BSet.Mem, resBSet] at member
  rw [every, most, newline, charsetSize]
  constructor
  · rintro (⟨le, -⟩ | rfl)
    · exact le
    · decide
  · intro le
    by_cases is : x = 10
    · exact .inr is
    · exact .inl ⟨le, not_or.mpr ⟨none, is⟩⟩

/-- `.*` -/
theorem part_rest : Part anyChar .factors [46, 42] fun s => ∀ y ∈ s, y ≤ 255 :=
  (@Part.any anyChar).clos0.repeated.congr fun s => by simp only [mem_anyChar]

end Zebra.Search
