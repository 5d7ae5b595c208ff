import Mathlib.Data.List.TakeWhile
import Mathlib.Logic.Function.Basic

/-!
# Reading a sort index

`sortidx.c`: a sort index has a file for each ordinal.  A flat file has a block for each record.
The other files are trees of entries in the order of the records, in which a reading goes on from
where the last one has stopped; `zebra_sort_sysno` has them begin again if it goes back.
-/

namespace Zebra.Sortidx

open List

variable {α : Type}

/-- The files of a sort index by ordinal, with what is stored for a record.  `zebra_sort_add` makes
no more than one entry for a record. -/
inductive SortFiles (α : Type)
  | flat (block : Nat → Nat → Option α)
  | isamb (entries : Nat → List (Nat × α))
      (ordered : ∀ ord, (entries ord).Pairwise fun e later => e.1 < later.1)

/-- What is stored for a record -/
def SortFiles.entry : SortFiles α → Nat → Nat → Option α
  | .flat block, ord, sysno => block ord sysno
  | .isamb entries _, ord, sysno => (entries ord).lookup sysno

/-- `struct zebra_sort_index`: the record and, for each file where `isam_pp` is open, the number of
the entries in front of its position -/
structure SortIndex where
  sysno : Nat
  isamPp : Nat → Option Nat

namespace SortIndex

/-- `zebra_sort_sysno`, for an index that is only read -/
def sortSysno (si : SortIndex) (newSysno : Nat) : SortIndex where
  sysno := newSysno
  isamPp := if newSysno ≤ si.sysno then fun _ => none else si.isamPp

/-- The entries in front of the position in a file -/
def before (si : SortIndex) (ord : Nat) : Nat := (si.isamPp ord).getD 0

def setPosition (si : SortIndex) (ord n : Nat) : SortIndex :=
  { si with isamPp := Function.update si.isamPp ord (some n) }

/-- `zebra_sort_read`, behind `zebra_sort_type`: `isamb_pp_forward` skips the entries of lower
records and reads the next one, of whatever record it is. -/
def sortRead (files : SortFiles α) (si : SortIndex) (ord : Nat) : Option α × SortIndex :=
  match files with
  | .flat block => (block ord si.sysno, si)
  | .isamb entries _ =>
    let rest := (entries ord).drop (si.before ord)
    let skipped := si.before ord + (rest.takeWhile fun e => e.1 < si.sysno).length
    match rest.dropWhile fun e => e.1 < si.sysno with
    | [] => (none, si.setPosition ord skipped)
    | e :: _ => (if e.1 = si.sysno then some e.2 else none, si.setPosition ord (skipped + 1))

/-- No entry of the record is in front of the position. -/
def Unpassed (files : SortFiles α) (si : SortIndex) (ord : Nat) : Prop :=
  match files with
  | .flat _ => True
  | .isamb entries _ => ∀ e ∈ (entries ord).take (si.before ord), e.1 ≠ si.sysno

variable {files : SortFiles α} {si : SortIndex} {ord : Nat}

@[simp]
theorem sortRead_sysno : (si.sortRead files ord).2.sysno = si.sysno := by
  cases files with
  | flat block => rfl
  | isamb entries ordered =>
    rw [sortRead]
    split <;> rfl

/-- In order, an entry for a record is the first one that is not of a lower record. -/
theorem lookup_dropWhile {entries : List (Nat × α)}
    (ordered : entries.Pairwise fun e later => e.1 < later.1) (sysno : Nat) :
    entries.lookup sysno =
      match entries.dropWhile fun e => e.1 < sysno with
      | [] => none
      | e :: _ => if e.1 = sysno then some e.2 else none := by
  induction entries with
  | nil => rfl
  | cons e entries ih =>
    obtain ⟨above, ordered⟩ := pairwise_cons.mp ordered
    by_cases lower : e.1 < sysno
    · rw [dropWhile_cons, if_pos (decide_eq_true lower), lookup_cons,
        beq_false_of_ne (Nat.ne_of_gt lower)]
      exact ih ordered
    · rw [dropWhile_cons, if_neg (by simpa using lower), lookup_cons]
      by_cases same : e.1 = sysno
      · rw [same, beq_self_eq_true]
        exact (if_pos same).symm
      · rw [beq_false_of_ne (Ne.symm same)]
        dsimp only
        rw [if_neg same, lookup_eq_none_iff]
        intro later mem
        have := above later mem
        simp only [bne_iff_ne, ne_eq]
        omega

theorem sortRead_fst (files : SortFiles α) (si : SortIndex) (ord : Nat) :
    (si.sortRead files ord).1 =
      match files with
      | .flat block => block ord si.sysno
      | .isamb entries _ => ((entries ord).drop (si.before ord)).lookup si.sysno := by
  cases files with
  | flat block => rfl
  | isamb entries ordered =>
    change _ = ((entries ord).drop (si.before ord)).lookup si.sysno
    rw [lookup_dropWhile ((ordered ord).drop), sortRead]
    split <;> rfl

/-- What is stored for a record is read if its entry is still behind the position. -/
theorem sortRead_unpassed (unpassed : si.Unpassed files ord) :
    (si.sortRead files ord).1 = files.entry ord si.sysno := by
  rw [sortRead_fst]
  cases files with
  | flat block => rfl
  | isamb entries ordered =>
    have none : ((entries ord).take (si.before ord)).lookup si.sysno = none :=
      lookup_eq_none_iff.mpr fun e mem => bne_iff_ne.mpr (Ne.symm (unpassed e mem))
    have all := congrArg (lookup si.sysno) (take_append_drop (si.before ord) (entries ord))
    rw [lookup_append, none] at all
    exact all

/-- An entry in front of the position is missed. -/
theorem sortRead_passed (passed : ¬ si.Unpassed files ord) :
    (si.sortRead files ord).1 = none ∧ files.entry ord si.sysno ≠ none := by
  rw [sortRead_fst]
  cases files with
  | flat block => exact absurd trivial passed
  | isamb entries ordered =>
    obtain ⟨e, mem, same⟩ : ∃ e ∈ (entries ord).take (si.before ord), e.1 = si.sysno := by
      simpa [Unpassed] using passed
    constructor
    · refine lookup_eq_none_iff.mpr fun later mem' => bne_iff_ne.mpr ?_
      have across := (pairwise_append.mp
        ((take_append_drop (si.before ord) (entries ord)).symm ▸ ordered ord)).2.2 e mem later mem'
      omega
    · rw [SortFiles.entry]
      intro none
      have other := lookup_eq_none_iff.mp none e (mem_of_mem_take mem)
      exact absurd same.symm (by simpa using other)

end SortIndex

end Zebra.Sortidx
