import Mathlib.Data.Prod.Lex
import Mathlib.Data.List.GetD
import Zebra.Zsets.Sort

/-!
# Records by their positions

`zebra_meta_records_create` finds the records at positions of a result set: first those in the sort
table, then the others as they come when the set is read.  Where the reading ended is kept with the
set, and a later call goes on from there when it can.  No call notices what was asked for before it.
-/

namespace Zebra.Zsets

open List
open ZsetSortEntry (sysno)

/-- `ZebraMetaRecord`; `sysno` is zero when there is no record. -/
structure ZebraMetaRecord where
  sysno : Nat
  score : Int
  term : Option (List Byte)
  db : Option (List Byte)
  deriving DecidableEq

def ZebraMetaRecord.none : ZebraMetaRecord := ⟨0, -1, Option.none, Option.none⟩

/-- The fields of `struct zebra_set` that matter here.  Reading `rset` gives its keys; an `RSFD` is
what is still to be read. -/
structure ZebraSet (numCriteria : Nat) where
  rset : Option (List ItKey)
  sortInfo : Option (ZsetSortInfo numCriteria)
  termEntries : Option (List (List Byte × List Byte))
  cachePosition : Int
  cacheRfd : Option (List ItKey)
  cachePsysno : Nat

/-- Where reading a set has got to. -/
structure Cursor where
  rfd : List ItKey
  position : Int
  psysno : Nat

variable {numCriteria : Nat}

/-- A position of a scan set; the code reads before its array for positions below 1. -/
def termRecord (entries : List (List Byte × List Byte)) (position : Int) : ZebraMetaRecord :=
  if position ≤ entries.length ∧ 0 < position then
    match entries[(position - 1).toNat]? with
    | some (term, db) => ⟨0, -1, some term, some db⟩
    | none => .none
  else .none

def sortedRecord (entries : List (ZsetSortEntry numCriteria)) (position : Int) : ZebraMetaRecord :=
  if 0 < position ∧ position ≤ entries.length then
    match entries[(position - 1).toNat]? with
    | some entry => ⟨entry.sysno, entry.score, none, none⟩
    | none => .none
  else .none

/-- The `while` loop that reads the set.  The records wanted are given with their positions;
`sorted` are the records of the sort table. -/
def readRest (sysnoMemIndex : Nat) (sorted : List Nat) :
    List ItKey → Int → Nat → List (Int × ZebraMetaRecord) → List ZebraMetaRecord × Cursor
  | [], position, psysno, wanted => (wanted.map Prod.snd, ⟨[], position, psysno⟩)
  | key :: rfd, position, psysno, [] => ([], ⟨key :: rfd, position, psysno⟩)
  | key :: rfd, position, psysno, (p, sr) :: wanted =>
    let thisSys := key.getD sysnoMemIndex 0
    if thisSys ≠ psysno then
      if thisSys ∈ sorted then readRest sysnoMemIndex sorted rfd position thisSys
        ((p, sr) :: wanted)
      else if position + 1 = p then
        let rest := readRest sysnoMemIndex sorted rfd (position + 1) thisSys wanted
        ({ sr with sysno := thisSys, score := -1 } :: rest.1, rest.2)
      else readRest sysnoMemIndex sorted rfd (position + 1) thisSys ((p, sr) :: wanted)
    else readRest sysnoMemIndex sorted rfd position psysno ((p, sr) :: wanted)

def ZebraSet.entries (sset : ZebraSet numCriteria) : List (ZsetSortEntry numCriteria) :=
  match sset.sortInfo with
  | some sortInfo => sortInfo.entries
  | none => []

/-- Go on from where the last call ended, or read the set again. -/
def ZebraSet.cursor (sset : ZebraSet numCriteria) (rset : List ItKey)
    (wanted : List (Int × ZebraMetaRecord)) : Cursor :=
  match sset.cacheRfd, wanted with
  | some rfd, (p, _) :: _ =>
    if p > sset.cachePosition then ⟨rfd, sset.cachePosition, sset.cachePsysno⟩
    else ⟨rset, sset.entries.length, 0⟩
  | _, _ => ⟨rset, sset.entries.length, 0⟩

def zebraMetaRecordsCreate (staticrank : Bool) (sset : ZebraSet numCriteria)
    (positions : List Int) : Option (List ZebraMetaRecord) × ZebraSet numCriteria :=
  let sysnoMemIndex := if staticrank then 1 else 0
  match sset.rset with
  | none =>
    match sset.termEntries with
    | none => (none, sset)
    | some entries => (some (positions.map (termRecord entries)), sset)
  | some rset =>
    let sr := positions.map fun position => (position, sortedRecord sset.entries position)
    -- did we really get all entries using sort?
    if sr.any fun record => record.2.sysno = 0 then
      let numEntries : Int := sset.entries.length
      let numI := sr.takeWhile fun record => record.1 ≤ numEntries
      let wanted := sr.dropWhile fun record => record.1 ≤ numEntries
      let start := sset.cursor rset wanted
      let read := readRest sysnoMemIndex (sset.entries.map ZsetSortEntry.sysno) start.rfd
        start.position start.psysno wanted
      (some (numI.map Prod.snd ++ read.1),
        { sset with
          cachePosition := read.2.position
          cachePsysno := read.2.psysno
          cacheRfd := some read.2.rfd })
    else (some (sr.map Prod.snd), sset)

/-- The records that are read after record `psysno`, without those of the sort table. -/
def remaining (sysnoMemIndex : Nat) (sorted : List Nat) : Nat → List ItKey → List Nat
  | _, [] => []
  | psysno, key :: keys =>
    let thisSys := key.getD sysnoMemIndex 0
    if thisSys ≠ psysno ∧ thisSys ∉ sorted then
      thisSys :: remaining sysnoMemIndex sorted thisSys keys
    else remaining sysnoMemIndex sorted thisSys keys

def lastSys (sysnoMemIndex : Nat) (psysno : Nat) (keys : List ItKey) : Nat :=
  keys.foldl (fun _ key => key.getD sysnoMemIndex 0) psysno

/-- The records of the sort table, and then the remaining ones of the set. -/
def enumeration (sysnoMemIndex : Nat) (entries : List (ZsetSortEntry numCriteria))
    (keys : List ItKey) : List ZebraMetaRecord :=
  entries.map (fun entry => ⟨entry.sysno, entry.score, none, none⟩) ++
    (remaining sysnoMemIndex (entries.map ZsetSortEntry.sysno) 0 keys).map
      fun sysno => ⟨sysno, -1, none, none⟩

def element (records : List ZebraMetaRecord) (position : Int) : ZebraMetaRecord :=
  if 0 < position then records.getD (position - 1).toNat .none else .none

section

variable {sysnoMemIndex : Nat} {sorted : List Nat}

theorem remaining_append (psysno : Nat) (front back : List ItKey) :
    remaining sysnoMemIndex sorted psysno (front ++ back) =
      remaining sysnoMemIndex sorted psysno front ++
        remaining sysnoMemIndex sorted (lastSys sysnoMemIndex psysno front) back := by
  induction front generalizing psysno with
  | nil => rfl
  | cons key front induction =>
    have last : lastSys sysnoMemIndex psysno (key :: front) =
        lastSys sysnoMemIndex (key.getD sysnoMemIndex 0) front := rfl
    rw [cons_append, remaining, remaining, induction, last]
    split
    · rw [cons_append]
    · rfl

/-- What a wanted record becomes when the records to come are known. -/
def fill (records : List Nat) (position : Int) (wanted : Int × ZebraMetaRecord) : ZebraMetaRecord :=
  match records[(wanted.1 - position - 1).toNat]? with
  | some sysno => { wanted.2 with sysno := sysno, score := -1 }
  | none => wanted.2

theorem fill_head (sysno : Nat) (records : List Nat) (position : Int) (sr : ZebraMetaRecord) :
    fill (sysno :: records) position (position + 1, sr) =
      { sr with sysno := sysno, score := -1 } := by
  have first : (position + 1 - position - 1).toNat = 0 := by omega
  rw [fill, first]
  rfl

theorem fill_cons (sysno : Nat) (records : List Nat) {position : Int}
    {wanted : Int × ZebraMetaRecord} (after : position + 1 < wanted.1) :
    fill (sysno :: records) position wanted = fill records (position + 1) wanted := by
  have index : (wanted.1 - position - 1).toNat = (wanted.1 - (position + 1) - 1).toNat + 1 := by
    omega
  rw [fill, fill, index, getElem?_cons_succ]

/-- Reading finds the records at the positions and stops somewhere in the set. -/
theorem readRest_spec (keys : List ItKey) (position : Int) (psysno : Nat)
    (wanted : List (Int × ZebraMetaRecord)) (order : wanted.Pairwise fun a b => a.1 < b.1)
    (after : ∀ w ∈ wanted, position < w.1) :
    let read := readRest sysnoMemIndex sorted keys position psysno wanted
    read.1 = wanted.map (fill (remaining sysnoMemIndex sorted psysno keys) position) ∧
      ∃ front, keys = front ++ read.2.rfd ∧
        read.2.psysno = lastSys sysnoMemIndex psysno front ∧
        read.2.position = position + (remaining sysnoMemIndex sorted psysno front).length := by
  induction keys generalizing position psysno wanted with
  | nil => exact ⟨map_congr_left fun _ _ => rfl, [], rfl, rfl, (Int.add_zero _).symm⟩
  | cons key keys induction =>
    cases wanted with
    | nil => exact ⟨rfl, [], rfl, rfl, (Int.add_zero _).symm⟩
    | cons w wanted =>
      obtain ⟨p, sr⟩ := w
      obtain ⟨later, order_rest⟩ := pairwise_cons.mp order
      have p_after := after _ mem_cons_self
      -- a key that does not count leads to the next key
      have go_on (nothing : ∀ rest, remaining sysnoMemIndex sorted psysno (key :: rest) =
          remaining sysnoMemIndex sorted (key.getD sysnoMemIndex 0) rest) :
          let read := readRest sysnoMemIndex sorted keys position (key.getD sysnoMemIndex 0)
            ((p, sr) :: wanted)
          read.1 = ((p, sr) :: wanted).map
              (fill (remaining sysnoMemIndex sorted psysno (key :: keys)) position) ∧
            ∃ front, key :: keys = front ++ read.2.rfd ∧
              read.2.psysno = lastSys sysnoMemIndex psysno front ∧
              read.2.position =
                position + (remaining sysnoMemIndex sorted psysno front).length := by
        obtain ⟨found, front, whole, last, count⟩ :=
          induction position (key.getD sysnoMemIndex 0) _ order after
        refine ⟨by rw [nothing, found], key :: front, by rw [cons_append, ← whole], last, ?_⟩
        rw [nothing, count]
      rw [readRest]
      dsimp only
      split
      · next differ =>
          split
          · next inside =>
              exact go_on fun rest => by rw [remaining, if_neg fun both => both.2 inside]
          · next outside =>
              have counts (rest : List ItKey) :
                  remaining sysnoMemIndex sorted psysno (key :: rest) =
                    key.getD sysnoMemIndex 0 ::
                      remaining sysnoMemIndex sorted (key.getD sysnoMemIndex 0) rest := by
                rw [remaining, if_pos ⟨differ, outside⟩]
              split
              · next here =>
                  obtain ⟨found, front, whole, last, count⟩ := induction (position + 1)
                    (key.getD sysnoMemIndex 0) wanted order_rest
                    fun w mem => here ▸ later w mem
                  refine ⟨?_, key :: front, by rw [cons_append, ← whole], last, ?_⟩
                  · rw [counts, map_cons, found]
                    have others := map_congr_left fun w mem =>
                      fill_cons (key.getD sysnoMemIndex 0)
                        (remaining sysnoMemIndex sorted (key.getD sysnoMemIndex 0) keys)
                        (here ▸ later w mem : position + 1 < w.1)
                    rw [others, ← here, fill_head]
                  · rw [counts, length_cons, count]
                    omega
              · next not_here =>
                  have further : ∀ w ∈ (p, sr) :: wanted, position + 1 < w.1 := by
                    have p_further : position + 1 < p := by omega
                    refine forall_mem_cons.mpr ⟨p_further, fun w mem => ?_⟩
                    exact p_further.trans (later w mem)
                  obtain ⟨found, front, whole, last, count⟩ := induction (position + 1)
                    (key.getD sysnoMemIndex 0) _ order further
                  refine ⟨?_, key :: front, by rw [cons_append, ← whole], last, ?_⟩
                  · rw [counts, found]
                    exact map_congr_left fun w mem => (fill_cons _ _ (further w mem)).symm
                  · rw [counts, length_cons, count]
                    omega
      · next same =>
          have equal := not_not.mp same
          have step := go_on fun rest => by rw [remaining, if_neg fun both => both.1 equal]
          rw [equal] at step
          exact step

/-- What belongs to the enumeration after the sort table. -/
theorem mem_remaining_of_mem {keys : List ItKey} (psysno : Nat) {key : ItKey} (mem : key ∈ keys)
    (outside : key.getD sysnoMemIndex 0 ∉ sorted) :
    key.getD sysnoMemIndex 0 ∈ remaining sysnoMemIndex sorted psysno keys ∨
      key.getD sysnoMemIndex 0 = psysno := by
  induction keys generalizing psysno with
  | nil => exact absurd mem not_mem_nil
  | cons head keys induction =>
    rw [remaining]
    rcases mem_cons.mp mem with rfl | mem
    · split
      · exact .inl mem_cons_self
      · next stays => exact .inr (by_contra fun differ => stays ⟨differ, outside⟩)
    · rcases induction (head.getD sysnoMemIndex 0) mem with inside | same
      · split
        · exact .inl (.tail _ inside)
        · exact .inl inside
      · split
        · exact .inl (same ▸ mem_cons_self)
        · next stays =>
            rw [same] at outside ⊢
            exact .inr (by_contra fun differ => stays ⟨differ, outside⟩)

theorem of_mem_remaining {keys : List ItKey} {psysno sysno : Nat}
    (mem : sysno ∈ remaining sysnoMemIndex sorted psysno keys) :
    sysno ∉ sorted ∧ ∃ key ∈ keys, key.getD sysnoMemIndex 0 = sysno := by
  induction keys generalizing psysno with
  | nil => exact absurd mem not_mem_nil
  | cons head keys induction =>
    rw [remaining] at mem
    have later (inside : sysno ∈ remaining sysnoMemIndex sorted (head.getD sysnoMemIndex 0) keys) :
        sysno ∉ sorted ∧ ∃ key ∈ head :: keys, key.getD sysnoMemIndex 0 = sysno := by
      obtain ⟨outside, key, key_mem, same⟩ := induction inside
      exact ⟨outside, key, .tail _ key_mem, same⟩
    split at mem
    · next counts =>
        rcases mem_cons.mp mem with rfl | inside
        · exact ⟨counts.2, head, .head _, rfl⟩
        · exact later inside
    · exact later mem

/-- When the keys come in the order of a quantity of their records, so do the remaining ones. -/
theorem remaining_pairwise {γ : Type} [LinearOrder γ] {f : Nat → γ} (injective : f.Injective)
    {keys : List ItKey} (psysno : Nat)
    (order : keys.Pairwise fun a b => f (a.getD sysnoMemIndex 0) ≤ f (b.getD sysnoMemIndex 0))
    (start : psysno = 0 ∨ ∀ key ∈ keys, f psysno ≤ f (key.getD sysnoMemIndex 0))
    (positive : ∀ key ∈ keys, key.getD sysnoMemIndex 0 ≠ 0) :
    (remaining sysnoMemIndex sorted psysno keys).Pairwise (fun a b => f a < f b) ∧
      (psysno ≠ 0 → ∀ sysno ∈ remaining sysnoMemIndex sorted psysno keys, f psysno < f sysno) := by
  induction keys generalizing psysno with
  | nil => exact ⟨List.Pairwise.nil, fun _ _ mem => absurd mem not_mem_nil⟩
  | cons head keys induction =>
    obtain ⟨head_le, order⟩ := pairwise_cons.mp order
    have head_ne := positive head mem_cons_self
    obtain ⟨rest, above⟩ := induction (head.getD sysnoMemIndex 0) order
      (Or.inr head_le) fun key mem => positive key (.tail _ mem)
    have above := above head_ne
    have le (ne : psysno ≠ 0) : f psysno ≤ f (head.getD sysnoMemIndex 0) :=
      start.elim (fun zero => absurd zero ne) fun all => all head mem_cons_self
    rw [remaining]
    split
    · next counts =>
        refine ⟨pairwise_cons.mpr ⟨above, rest⟩, fun ne => ?_⟩
        have lt := (le ne).lt_of_ne fun same => counts.1 (injective same).symm
        exact forall_mem_cons.mpr ⟨lt, fun sysno mem => lt.trans (above sysno mem)⟩
    · exact ⟨rest, fun ne sysno mem => (le ne).trans_lt (above sysno mem)⟩

end

section

variable {staticrank : Bool}

abbrev memIndex (staticrank : Bool) : Nat := if staticrank then 1 else 0

/-- The place kept with a set is one that reading its keys comes to. -/
structure Cached (staticrank : Bool) (keys : List ItKey) (sset : ZebraSet numCriteria) : Prop where
  rset : sset.rset = some keys
  place : ∀ rfd, sset.cacheRfd = some rfd → ∃ front, keys = front ++ rfd ∧
    sset.cachePsysno = lastSys (memIndex staticrank) 0 front ∧
    sset.cachePosition = sset.entries.length + (remaining (memIndex staticrank)
      (sset.entries.map ZsetSortEntry.sysno) 0 front).length

variable {entries : List (ZsetSortEntry numCriteria)}

theorem sortedRecord_of_le {position : Int}
    (le : position ≤ entries.length) (sysnoMemIndex : Nat) (keys : List ItKey) :
    sortedRecord entries position = element (enumeration sysnoMemIndex entries keys) position := by
  rw [sortedRecord, element]
  rcases lt_or_ge 0 position with positive | negative
  · have inside : (position - 1).toNat < entries.length := by omega
    rw [if_pos ⟨positive, le⟩, if_pos positive, getElem?_eq_getElem inside, enumeration,
      getD_append _ _ _ _ (by rwa [length_map]),
      getD_eq_getElem _ _ (by rwa [length_map]), getElem_map]
  · rw [if_neg fun both => both.1.not_ge negative, if_neg negative.not_gt]

theorem sortedRecord_of_gt {position : Int}
    (gt : entries.length < position) : sortedRecord entries position = .none :=
  if_neg fun both => both.2.not_gt gt

theorem element_of_gt {position : Int}
    (gt : entries.length < position) (sysnoMemIndex : Nat) (front back : List ItKey)
    {start : Int} (start_lt : start < position)
    (start_eq : start = entries.length + (remaining sysnoMemIndex
      (entries.map sysno) 0 front).length) :
    element (enumeration sysnoMemIndex entries (front ++ back)) position =
      fill (remaining sysnoMemIndex (entries.map sysno)
        (lastSys sysnoMemIndex 0 front) back) start (position, .none) := by
  have positive : 0 < position := by omega
  rw [element, if_pos positive, enumeration, remaining_append, map_append,
    getD_append_right _ _ _ _ (by rw [length_map]; omega),
    getD_append_right _ _ _ _ (by rw [length_map, length_map]; omega),
    length_map, length_map, fill]
  have index : (position - 1).toNat - entries.length -
      (remaining sysnoMemIndex (entries.map sysno) 0 front).length =
        (position - start - 1).toNat := by
    omega
  rw [index, getD_eq_getElem?_getD, getElem?_map]
  cases (remaining sysnoMemIndex (entries.map sysno)
    (lastSys sysnoMemIndex 0 front) back)[(position - start - 1).toNat]? with
  | none => rfl
  | some sysno => rfl

/-- A place in the keys of a set, with the position it stands for. -/
def IsPlace (sysnoMemIndex : Nat) (entries : List (ZsetSortEntry numCriteria)) (keys : List ItKey)
    (cursor : Cursor) : Prop :=
  ∃ front, keys = front ++ cursor.rfd ∧ cursor.psysno = lastSys sysnoMemIndex 0 front ∧
    cursor.position = entries.length +
      (remaining sysnoMemIndex (entries.map ZsetSortEntry.sysno) 0 front).length

variable {keys : List ItKey} {sset : ZebraSet numCriteria}

/-- Wherever a call starts to read, the records wanted come later. -/
theorem cursor_spec (cached : Cached staticrank keys sset) {wanted : List (Int × ZebraMetaRecord)}
    (order : wanted.Pairwise fun a b => a.1 < b.1)
    (after : ∀ w ∈ wanted, (sset.entries.length : Int) < w.1) :
    IsPlace (memIndex staticrank) sset.entries keys (sset.cursor keys wanted) ∧
      ∀ w ∈ wanted, (sset.cursor keys wanted).position < w.1 := by
  have again : IsPlace (memIndex staticrank) sset.entries keys
      ⟨keys, sset.entries.length, 0⟩ := ⟨[], rfl, rfl, (Int.add_zero _).symm⟩
  rw [ZebraSet.cursor.eq_def]
  split
  · next rfd p sr wanted open_rfd =>
      split
      · next further =>
          refine ⟨cached.place rfd open_rfd, forall_mem_cons.mpr ⟨further, fun w mem => ?_⟩⟩
          exact further.trans ((pairwise_cons.mp order).1 w mem)
      · exact ⟨again, after⟩
  · exact ⟨again, after⟩

theorem readRest_place
    {start : Cursor} {sysnoMemIndex : Nat} (place : IsPlace sysnoMemIndex entries keys start)
    {wanted : List (Int × ZebraMetaRecord)} (order : wanted.Pairwise fun a b => a.1 < b.1)
    (after : ∀ w ∈ wanted, start.position < w.1)
    (behind : ∀ w ∈ wanted, (entries.length : Int) < w.1 ∧ w.2 = .none) :
    let read := readRest sysnoMemIndex (entries.map sysno) start.rfd start.position
      start.psysno wanted
    read.1 = wanted.map (fun w => element (enumeration sysnoMemIndex entries keys) w.1) ∧
      IsPlace sysnoMemIndex entries keys read.2 := by
  obtain ⟨front, whole, last, count⟩ := place
  obtain ⟨found, front', whole', last', count'⟩ := @readRest_spec sysnoMemIndex
    (entries.map sysno) start.rfd start.position start.psysno wanted order after
  constructor
  · rw [found]
    refine map_congr_left fun w mem => ?_
    obtain ⟨gt, blank⟩ := behind w mem
    rw [whole, element_of_gt gt _ front start.rfd (after w mem) count, last]
    congr 1
    exact Prod.ext rfl blank
  · refine ⟨front ++ front', by rw [append_assoc, ← whole', ← whole], ?_, ?_⟩
    · rw [last', last, lastSys, lastSys, lastSys, foldl_append]
    · rw [count', count, last, remaining_append, length_append]
      push_cast
      omega

/-- A call finds the elements of the enumeration, wherever the calls before it ended. -/
theorem create_spec (cached : Cached staticrank keys sset) {positions : List Int}
    (order : positions.Pairwise (· < ·)) :
    (zebraMetaRecordsCreate staticrank sset positions).1 =
        some (positions.map (element (enumeration (memIndex staticrank) sset.entries keys))) ∧
      Cached staticrank keys (zebraMetaRecordsCreate staticrank sset positions).2 ∧
      (zebraMetaRecordsCreate staticrank sset positions).2.entries = sset.entries := by
  rw [zebraMetaRecordsCreate, cached.rset]
  dsimp only
  obtain ⟨sr, sr_def⟩ : ∃ sr, sr = positions.map fun position =>
      (position, sortedRecord sset.entries position) := ⟨_, rfl⟩
  have sorted : ∀ w ∈ sr, w.2 = sortedRecord sset.entries w.1 := by
    intro w mem
    rw [sr_def] at mem
    obtain ⟨position, -, rfl⟩ := mem_map.mp mem
    rfl
  have order : sr.Pairwise fun a b => a.1 < b.1 := by
    rw [sr_def]
    exact pairwise_map.mpr order
  have all : positions.map (element (enumeration (memIndex staticrank) sset.entries keys)) =
      sr.map fun w => element (enumeration (memIndex staticrank) sset.entries keys) w.1 := by
    rw [sr_def, map_map]
    rfl
  have front_found : ∀ w ∈ sr, w.1 ≤ sset.entries.length →
      w.2 = element (enumeration (memIndex staticrank) sset.entries keys) w.1 := fun w mem le =>
    (sorted w mem).trans (sortedRecord_of_le le _ _)
  rw [← sr_def, all]
  split
  · obtain ⟨numI, numI_def⟩ : ∃ numI, numI = sr.takeWhile fun record =>
        decide (record.1 ≤ (sset.entries.length : Int)) := ⟨_, rfl⟩
    obtain ⟨wanted, wanted_def⟩ : ∃ wanted, wanted = sr.dropWhile fun record =>
        decide (record.1 ≤ (sset.entries.length : Int)) := ⟨_, rfl⟩
    have whole : numI ++ wanted = sr := by
      rw [numI_def, wanted_def]
      exact takeWhile_append_dropWhile
    have wanted_sub : wanted.Sublist sr := wanted_def ▸ dropWhile_sublist _
    have wanted_order := order.sublist wanted_sub
    have after : ∀ w ∈ wanted, (sset.entries.length : Int) < w.1 := by
      cases wanted_cons : wanted with
      | nil => exact fun w mem => absurd mem not_mem_nil
      | cons first rest =>
        have ne : (sr.dropWhile fun record =>
            decide (record.1 ≤ (sset.entries.length : Int))) ≠ [] := by
          rw [← wanted_def, wanted_cons]
          exact cons_ne_nil _ _
        have first_gt := head_dropWhile_not (fun record : Int × ZebraMetaRecord =>
          decide (record.1 ≤ (sset.entries.length : Int))) ne
        simp only [← wanted_def, wanted_cons, head_cons, decide_eq_false_iff_not,
          not_le] at first_gt
        rw [wanted_cons] at wanted_order
        exact forall_mem_cons.mpr ⟨first_gt, fun w mem =>
          first_gt.trans ((pairwise_cons.mp wanted_order).1 w mem)⟩
    have behind : ∀ w ∈ wanted, (sset.entries.length : Int) < w.1 ∧ w.2 = .none := fun w mem =>
      ⟨after w mem, (sorted w (wanted_sub.subset mem)).trans (sortedRecord_of_gt (after w mem))⟩
    obtain ⟨start, start_before⟩ := cursor_spec cached wanted_order after
    obtain ⟨found, place⟩ := readRest_place start wanted_order start_before behind
    have early : numI.map Prod.snd =
        numI.map fun w => element (enumeration (memIndex staticrank) sset.entries keys) w.1 :=
      map_congr_left fun w mem => front_found w (whole ▸ mem_append_left _ mem)
        (of_decide_eq_true (mem_takeWhile_imp (p := fun record : Int × ZebraMetaRecord =>
          decide (record.1 ≤ (sset.entries.length : Int))) (numI_def ▸ mem)))
    rw [← numI_def, ← wanted_def]
    refine ⟨?_, ⟨rfl, fun rfd open_rfd => ?_⟩, rfl⟩
    · rw [found, early, ← map_append, whole]
    · obtain rfl := Option.some.inj open_rfd
      exact place
  · next got =>
      refine ⟨congrArg some (map_congr_left fun w mem => ?_), cached, rfl⟩
      refine front_found w mem (not_lt.mp fun gt => got ?_)
      refine any_eq_true.mpr ⟨w, mem, decide_eq_true ?_⟩
      rw [sorted w mem, sortedRecord_of_gt gt]
      rfl

def lookups (staticrank : Bool) : ZebraSet numCriteria → List (List Int) →
    List (Option (List ZebraMetaRecord))
  | _, [] => []
  | sset, positions :: calls =>
    let create := zebraMetaRecordsCreate staticrank sset positions
    create.1 :: lookups staticrank create.2 calls

theorem lookups_eq (cached : Cached staticrank keys sset) {calls : List (List Int)}
    (order : ∀ positions ∈ calls, positions.Pairwise (· < ·)) :
    lookups staticrank sset calls = calls.map fun positions =>
      some (positions.map (element (enumeration (memIndex staticrank) sset.entries keys))) := by
  induction calls generalizing sset with
  | nil => rfl
  | cons positions calls induction =>
    obtain ⟨found, cached', entries⟩ := create_spec cached (order positions mem_cons_self)
    rw [lookups, map_cons, found,
      induction cached' fun positions mem => order positions (.tail _ mem), entries]

end

theorem heads_of_keyCompareFrom {rest : Nat} {a b : ItKey}
    (le : keyCompareFrom (rest + 1) a b ≤ 0) :
    a.getD 0 0 < b.getD 0 0 ∨
      a.getD 0 0 = b.getD 0 0 ∧ keyCompareFrom rest a.tail b.tail ≤ 0 := by
  rw [keyCompareFrom, headD_eq_getD, headD_eq_getD] at le
  split at le
  · next same => exact .inr ⟨same, le⟩
  · next differ =>
      split at le
      · omega
      · next not_gt => exact .inl (lt_of_le_of_ne (not_lt.mp not_gt) differ)

theorem getD_tail (a : ItKey) : a.tail.getD 0 0 = a.getD 1 0 := by
  cases a <;> rfl

/-- Keys in order are in the order of their first two components. -/
theorem getD_le_of_keyCompare {a b : ItKey} (le : keyCompare a b ≤ 0) :
    a.getD 0 0 < b.getD 0 0 ∨ a.getD 0 0 = b.getD 0 0 ∧ a.getD 1 0 ≤ b.getD 1 0 := by
  rw [keyCompare] at le
  cases size : max a.length b.length with
  | zero =>
    have none_a : a = [] := length_eq_zero_iff.mp (by omega)
    have none_b : b = [] := length_eq_zero_iff.mp (by omega)
    rw [none_a, none_b]
    exact .inr ⟨rfl, le_rfl⟩
  | succ rest =>
    rw [size] at le
    refine (heads_of_keyCompareFrom le).imp_right fun heads => ⟨heads.1, ?_⟩
    have le := heads.2
    rw [← getD_tail, ← getD_tail]
    cases rest with
    | zero =>
      have none : a.tail = [] := by
        rw [← length_eq_zero_iff, length_tail]
        omega
      rw [none]
      exact Nat.zero_le _
    | succ rest => exact (heads_of_keyCompareFrom le).elim Nat.le_of_lt fun both => both.1.le

/-- Any calls find the records of one enumeration: those of the sort table, and then the other
records of the set, each once; they come by record number, or by static rank when that is part of
the keys. -/
theorem positions_fixed (staticrank : Bool) (keys : List ItKey) (sset : ZebraSet numCriteria)
    (rset : sset.rset = some keys) (fresh : sset.cacheRfd = none)
    (ascending : keys.Pairwise fun a b => keyCompare a b ≤ 0)
    (positive : ∀ key ∈ keys, key.getD (memIndex staticrank) 0 ≠ 0) (calls : List (List Int))
    (order : ∀ positions ∈ calls, positions.Pairwise (· < ·)) :
    let rest := remaining (memIndex staticrank) (sset.entries.map ZsetSortEntry.sysno) 0 keys
    lookups staticrank sset calls = calls.map (fun positions => some (positions.map
        (element (sset.entries.map (fun entry => ⟨entry.sysno, entry.score, none, none⟩) ++
          rest.map fun sysno => ⟨sysno, -1, none, none⟩)))) ∧
      (∀ sysno, sysno ∈ rest ↔ sysno ∉ sset.entries.map ZsetSortEntry.sysno ∧
        ∃ key ∈ keys, key.getD (memIndex staticrank) 0 = sysno) ∧
      (staticrank = false → rest.Pairwise (· < ·)) ∧
      (staticrank = true → ∀ rank : Nat → Nat,
        (∀ key ∈ keys, key.getD 0 0 = rank (key.getD 1 0)) →
          rest.Pairwise fun a b => rank a < rank b ∨ rank a = rank b ∧ a < b) := by
  have cached : Cached staticrank keys sset :=
    ⟨rset, fun rfd opened => absurd (fresh.symm.trans opened) (by simp)⟩
  refine ⟨lookups_eq cached order, fun sysno => ⟨of_mem_remaining, ?_⟩, ?_, ?_⟩
  · rintro ⟨outside, key, mem, rfl⟩
    exact (mem_remaining_of_mem 0 mem outside).resolve_right (positive key mem)
  · rintro rfl
    exact (remaining_pairwise (f := id) Function.injective_id 0
      (ascending.imp fun le => (getD_le_of_keyCompare le).elim Nat.le_of_lt fun both => both.1.le)
      (Or.inl rfl) positive).1
  · rintro rfl rank ranked
    have injective : Function.Injective fun sysno => toLex (rank sysno, sysno) := fun a b same =>
      (Prod.ext_iff.mp (toLex.injective same)).2
    have lexicographic := ascending.imp_of_mem (S := fun a b =>
        toLex (rank (a.getD 1 0), a.getD 1 0) ≤ toLex (rank (b.getD 1 0), b.getD 1 0))
      fun mem_a mem_b le => by
        rw [Prod.Lex.toLex_le_toLex, ← ranked _ mem_a, ← ranked _ mem_b]
        exact getD_le_of_keyCompare le
    exact (remaining_pairwise injective 0 lexicographic (Or.inl rfl) positive).1.imp fun lt =>
      Prod.Lex.toLex_lt_toLex.mp lt

/-- A set of three keys of two records, with nothing asked for yet. -/
def twoRecordSet (keys : List ItKey) : ZebraSet 0 := ⟨some keys, none, none, 0, none, 0⟩

theorem positions_fixed_two : let rest := remaining 0 [] 0 [[3, 1], [3, 2], [5, 1]]
    lookups false (twoRecordSet [[3, 1], [3, 2], [5, 1]]) [[2], [1, 3]] =
        [[2], [1, 3]].map (fun positions => some (positions.map
          (element (rest.map fun sysno => ⟨sysno, -1, none, none⟩)))) ∧
      (∀ sysno, sysno ∈ rest ↔ sysno ∉ ([] : List Nat) ∧
        ∃ key ∈ ([[3, 1], [3, 2], [5, 1]] : List ItKey), key.getD 0 0 = sysno) ∧
      (false = false → rest.Pairwise (· < ·)) ∧
      (false = true → ∀ rank : Nat → Nat,
        (∀ key ∈ ([[3, 1], [3, 2], [5, 1]] : List ItKey), key.getD 0 0 = rank (key.getD 1 0)) →
          rest.Pairwise fun a b => rank a < rank b ∨ rank a = rank b ∧ a < b) :=
  positions_fixed false [[3, 1], [3, 2], [5, 1]] (twoRecordSet [[3, 1], [3, 2], [5, 1]]) rfl rfl
    (by decide) (by decide) [[2], [1, 3]] (by decide)

/-- With static ranks the records do not come by their numbers. -/
theorem not_positions_ascending :
    ¬ ∀ (staticrank : Bool) (keys : List ItKey) (records : List ZebraMetaRecord),
      (keys.Pairwise fun a b => keyCompare a b ≤ 0) →
      (zebraMetaRecordsCreate staticrank (twoRecordSet keys) [1, 2]).1 = some records →
      records.Pairwise fun a b => a.sysno < b.sysno := by
  intro every
  have order := every true [[1, 5], [2, 3]] [⟨5, -1, none, none⟩, ⟨3, -1, none, none⟩] (by decide)
    (by decide)
  revert order
  decide

end Zebra.Zsets
