import Zebra.Index.KeyBlock
import Zebra.Index.SortIndex
import Zebra.Lib.StableSort

/-!
# Inserting into the sort table

A result set is sorted while its records are read: each is put into a table of limited size, by the
keys that the sort index has for it.  The keys are compared in buffers of one size.
-/

namespace Zebra.Zsets

open TempFile (strcmp)

open Sortidx

abbrev CString := { s : List Byte // (0 : Byte) ∉ s }

def sortIdxEntrysize : Nat := 64

/-- The relations of a sort key, `'A'` and `'D'`. -/
inductive Relation
  | ascending
  | descending
  deriving DecidableEq

/-- `struct sortKeyInfo`: for each database its sort index, none for `-1`, and whether it is
numerical. -/
structure SortKeyInfo where
  relation : Relation
  ord : Nat → Option Nat
  numerical : Nat → Bool
  indexType : List Byte

/-- `struct zset_sort_entry` with its part of `cmp_buf`. -/
structure ZsetSortEntry (numCriteria : Nat) where
  sysno : Nat
  score : Int
  cmpBuf : Fin numCriteria → List Byte

structure ZsetSortInfo (numCriteria : Nat) where
  maxEntries : Nat
  entries : List (ZsetSortEntry numCriteria)

def cString (buf : List Byte) : List Byte := buf.takeWhile (· ≠ 0)

/-- `memcpy` and the terminating zero; the bytes after it stay. -/
def store (buf value : List Byte) : List Byte :=
  let l := if value.length ≥ sortIdxEntrysize then sortIdxEntrysize - 1 else value.length
  value.take l ++ 0 :: buf.drop (l + 1)

/-- A later value of the record takes the place of a higher one, or a lower one. -/
def consider (relation : Relation) (buf : List Byte) (value : CString) : List Byte :=
  if (relation = .ascending ∧ strcmp value.1 (cString buf) < 0) ∨
      (relation = .descending ∧ strcmp value.1 (cString buf) > 0) then
    store buf value.1
  else buf

/-- `this_entry_buf` after the values of the sort index; the first one is taken in any case. -/
def thisEntryBuf (relation : Relation) : List CString → List Byte
  | [] => List.replicate sortIdxEntrysize 0
  | value :: rest =>
    rest.foldl (consider relation) (store (List.replicate sortIdxEntrysize 0) value.1)

/-- `memcmp` compares bytes like `strcmp`, only that it does not stop at a zero. -/
def memcmp (a b : List Byte) (size : Nat) : Int := strcmp (a.take size) (b.take size)

/-- The sign of `atof(a) - atof(b)`; nothing can be said of what is not a number. -/
def diff {R : Type} [LinearOrder R] : Option R → Option R → Int
  | some a, some b => if a > b then 1 else if a < b then -1 else 0
  | _, _ => 0

variable {R : Type} [LinearOrder R] {numCriteria : Nat}

/-- `rel` of one criterion; `number` is `zebra_term_untrans` and then `atof`. -/
def rel (number : List Byte → List Byte → Option R) (criterion : SortKeyInfo) (databaseNo : Nat)
    (thisEntryBuf otherEntryBuf : List Byte) : Int :=
  if criterion.numerical databaseNo then
    diff (number criterion.indexType (cString thisEntryBuf))
      (number criterion.indexType (cString otherEntryBuf))
  else memcmp thisEntryBuf otherEntryBuf sortIdxEntrysize

/-- Whether the scan stops at an entry: the first criterion that tells the two apart decides. -/
def scanStops (number : List Byte → List Byte → Option R)
    (criteria : Fin numCriteria → SortKeyInfo) (databaseNo : Nat)
    (tmpCmpBuf cmpBuf : Fin numCriteria → List Byte) : List (Fin numCriteria) → Bool
  | [] => true
  | j :: rest =>
    let rel := rel number (criteria j) databaseNo (tmpCmpBuf j) (cmpBuf j)
    if rel ≠ 0 then
      match (criteria j).relation with
      | .ascending => rel > 0
      | .descending => rel < 0
    else scanStops number criteria databaseNo tmpCmpBuf cmpBuf rest

/-- The values read for a criterion, by `zebra_sort_type` and `zebra_sort_read` -/
def sortValues (files : SortFiles (List CString)) (criterion : SortKeyInfo) (databaseNo : Nat)
    (si : SortIndex) : List CString × SortIndex :=
  match criterion.ord databaseNo with
  | some ord => ((si.sortRead files ord).1.getD [], (si.sortRead files ord).2)
  | none => ([], si)

/-- `tmp_cmp_buf` after the loop over criteria, each of which reads from the sort index -/
def tmpCmpBuf (files : SortFiles (List CString)) (criteria : Fin numCriteria → SortKeyInfo)
    (databaseNo : Nat) :
    List (Fin numCriteria) → SortIndex → (Fin numCriteria → List Byte) × SortIndex
  | [], si => (fun _ => [], si)
  | i :: rest, si =>
    let read := sortValues files (criteria i) databaseNo si
    let others := tmpCmpBuf files criteria databaseNo rest read.2
    (fun j => if j = i then thisEntryBuf (criteria i).relation read.1 else others.1 j, others.2)

def resultSetInsertSort (files : SortFiles (List CString))
    (number : List Byte → List Byte → Option R) (criteria : Fin numCriteria → SortKeyInfo)
    (si : SortIndex) (info : ZsetSortInfo numCriteria) (databaseNo sysno : Nat) :
    SortIndex × ZsetSortInfo numCriteria :=
  let buf := tmpCmpBuf files criteria databaseNo (List.finRange numCriteria) (si.sortSysno sysno)
  (buf.2, { info with
    entries := offer
      (fun entry => scanStops number criteria databaseNo buf.1 entry.cmpBuf
        (List.finRange numCriteria))
      info.maxEntries ⟨sysno, -1, buf.1⟩ info.entries })

/-- `resultSetInsertRank`; there are no buffers to compare. -/
def resultSetInsertRank (info : ZsetSortInfo 0) (sysno : Nat) (score : Int) (relation : Relation) :
    ZsetSortInfo 0 :=
  { info with
    entries := offer
      (fun entry =>
        let rel := score - entry.score
        match relation with
        | .descending => rel ≥ 0
        | .ascending => rel ≤ 0)
      info.maxEntries ⟨sysno, score, Fin.elim0⟩ info.entries }

/-- The values that a record has for a criterion -/
def ownValues (files : SortFiles (List CString)) (criterion : SortKeyInfo)
    (databaseNo sysno : Nat) : List CString :=
  match criterion.ord databaseNo with
  | some ord => (files.entry ord sysno).getD []
  | none => []

/-- For each criterion in turn, no entry of the record is in front of the position in the file. -/
def Unpassed (files : SortFiles (List CString)) (criteria : Fin numCriteria → SortKeyInfo)
    (databaseNo : Nat) : List (Fin numCriteria) → SortIndex → Prop
  | [], _ => True
  | i :: rest, si =>
    (∀ ord, (criteria i).ord databaseNo = some ord → si.Unpassed files ord) ∧
      Unpassed files criteria databaseNo rest (sortValues files (criteria i) databaseNo si).2

def Better (relation : Relation) (value held : List Byte) : Prop :=
  match relation with
  | .ascending => strcmp value held < 0
  | .descending => strcmp value held > 0

instance (relation : Relation) (value held : List Byte) :
    Decidable (Better relation value held) := by
  cases relation
  · exact inferInstanceAs (Decidable (strcmp value held < 0))
  · exact inferInstanceAs (Decidable (strcmp value held > 0))

def fit (value : CString) : List Byte := value.1.take (sortIdxEntrysize - 1)

/-- What is taken after `held`, in order. -/
def picksFrom (relation : Relation) (held : List Byte) : List CString → List (List Byte)
  | [] => []
  | value :: rest =>
    if Better relation value.1 held then fit value :: picksFrom relation (fit value) rest
    else picksFrom relation held rest

def picks (relation : Relation) : List CString → List (List Byte)
  | [] => []
  | value :: rest => fit value :: picksFrom relation (fit value) rest

def sortKey (relation : Relation) (values : List CString) : List Byte :=
  (picks relation values).getLastD []

/-- Each value taken is at most one byte longer than the longest of those taken after it: nothing
of it stays behind their terminating zeros. -/
def Settled : List (List Byte) → Prop
  | [] => True
  | [_] => True
  | pick :: next :: rest =>
    (∃ later ∈ next :: rest, pick.length ≤ later.length + 1) ∧ Settled (next :: rest)

def padded (key : List Byte) : List Byte :=
  key ++ List.replicate (sortIdxEntrysize - key.length) 0

end Zebra.Zsets
