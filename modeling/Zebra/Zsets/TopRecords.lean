import Mathlib.Data.List.GetD
import Zebra.Index.TempFiles
import Zebra.Zsets.Sort

/-!
# The sort table holds the first records

When no bytes of an earlier value stay behind the value that is taken, the buffers compare as the
sort keys do, and the table holds the first records of the stable sort of all that were inserted.
-/

namespace Zebra.Zsets

open List TempFile Sortidx

variable {relation : Relation}

/-- Put a key with its terminating zero into a buffer. -/
def put (buf key : List Byte) : List Byte := key ++ 0 :: buf.drop (key.length + 1)

theorem length_fit (value : CString) : (fit value).length < sortIdxEntrysize := by
  rw [fit, length_take]
  exact lt_of_le_of_lt (min_le_left _ _) (by decide)

theorem zero_notMem_fit (value : CString) : (0 : Byte) ∉ fit value :=
  fun mem => value.2 (mem_of_mem_take mem)

theorem store_eq (buf : List Byte) (value : CString) : store buf value.1 = put buf (fit value) := by
  have same : value.1.take
      (if value.1.length ≥ sortIdxEntrysize then sortIdxEntrysize - 1 else value.1.length) =
      fit value := by
    split
    · rfl
    · next short => rw [fit, take_length, take_of_length_le (by omega)]
  have length : (if value.1.length ≥ sortIdxEntrysize then sortIdxEntrysize - 1
      else value.1.length) = (fit value).length := by
    rw [← same, length_take]
    split
    · next long => exact (min_eq_left (by omega)).symm
    · rw [min_self]
  rw [store, put, same, length]

variable {key buf : List Byte}

theorem cString_put (buf : List Byte) (clean : (0 : Byte) ∉ key) : cString (put buf key) = key := by
  have go : ∀ byte ∈ key, decide (byte ≠ 0) = true := fun byte mem =>
    decide_eq_true fun zero => clean (zero ▸ mem)
  rw [cString, put, takeWhile_append_of_pos go, takeWhile_cons, if_neg (by decide),
    append_nil]

theorem foldl_consider (values : List CString) (buf : List Byte) :
    values.foldl (consider relation) buf =
      (picksFrom relation (cString buf) values).foldl put buf := by
  induction values generalizing buf with
  | nil => rfl
  | cons value rest induction =>
    have better : ((relation = .ascending ∧ strcmp value.1 (cString buf) < 0) ∨
        (relation = .descending ∧ strcmp value.1 (cString buf) > 0)) ↔
        Better relation value.1 (cString buf) := by
      cases relation <;> simp [Better]
    rw [foldl_cons, picksFrom, consider]
    simp only [better]
    split
    · rw [foldl_cons, induction, store_eq, cString_put buf (zero_notMem_fit value)]
    · exact induction buf

theorem thisEntryBuf_eq (values : List CString) :
    thisEntryBuf relation values =
      (picks relation values).foldl put (replicate sortIdxEntrysize 0) := by
  cases values with
  | nil => rfl
  | cons value rest =>
    rw [thisEntryBuf, picks, foldl_cons, foldl_consider, store_eq,
      cString_put _ (zero_notMem_fit value)]

variable {values : List CString}

theorem mem_picksFrom {held pick : List Byte}
    (mem : pick ∈ picksFrom relation held values) : ∃ value ∈ values, pick = fit value := by
  induction values generalizing held with
  | nil => exact absurd mem not_mem_nil
  | cons value rest induction =>
    rw [picksFrom] at mem
    split at mem
    · rcases mem_cons.mp mem with rfl | mem
      · exact ⟨value, .head _, rfl⟩
      · obtain ⟨later, inside, same⟩ := induction mem
        exact ⟨later, .tail _ inside, same⟩
    · obtain ⟨later, inside, same⟩ := induction mem
      exact ⟨later, .tail _ inside, same⟩

theorem mem_picks {pick : List Byte}
    (mem : pick ∈ picks relation values) : ∃ value ∈ values, pick = fit value := by
  cases values with
  | nil => exact absurd mem not_mem_nil
  | cons value rest =>
    rcases mem_cons.mp mem with rfl | mem
    · exact ⟨value, .head _, rfl⟩
    · obtain ⟨later, inside, same⟩ := mem_picksFrom mem
      exact ⟨later, .tail _ inside, same⟩

/-- Bytes behind the terminating zero stay as they were. -/
theorem getD_put (buf key : List Byte) (k : Nat) :
    (put buf key).getD (key.length + k) 0 = if k = 0 then 0 else buf.getD (key.length + k) 0 := by
  rw [put, getD_append_right _ _ _ _ (Nat.le_add_right _ _), Nat.add_sub_cancel_left]
  cases k with
  | zero => rfl
  | succ k =>
    rw [getD_cons_succ, if_neg (Nat.succ_ne_zero k), getD_eq_getElem?_getD,
      getElem?_drop, getD_eq_getElem?_getD, Nat.add_assoc, Nat.add_comm 1 k]

theorem length_put (size : buf.length = sortIdxEntrysize)
    (short : key.length < sortIdxEntrysize) : (put buf key).length = sortIdxEntrysize := by
  rw [put, length_append, length_cons, length_drop]
  omega

theorem put_eq_padded (size : buf.length = sortIdxEntrysize)
    (short : key.length < sortIdxEntrysize) (clean : ∀ i, key.length < i → buf.getD i 0 = 0) :
    put buf key = padded key := by
  have rest : buf.drop (key.length + 1) = replicate (sortIdxEntrysize - (key.length + 1)) 0 := by
    refine eq_replicate_iff.mpr ⟨by rw [length_drop, size], fun byte mem => ?_⟩
    obtain ⟨k, inside, rfl⟩ := mem_iff_getElem.mp mem
    have zero := clean (key.length + 1 + k) (by omega)
    rw [getElem_drop]
    rwa [getD_eq_getElem _ _ (by rw [length_drop] at inside; omega)] at zero
  have more : sortIdxEntrysize - key.length = sortIdxEntrysize - (key.length + 1) + 1 := by omega
  rw [put, rest, padded, more, replicate_succ]

/-- After settled picks the buffer holds the last one and nothing else. -/
theorem foldl_put {keys : List (List Byte)} (settled : Settled keys) (some : keys ≠ [])
    (short : ∀ key ∈ keys, key.length < sortIdxEntrysize) (size : buf.length = sortIdxEntrysize)
    (clean : ∀ i, (∀ key ∈ keys, key.length < i) → buf.getD i 0 = 0) :
    keys.foldl put buf = padded (keys.getLastD []) := by
  induction keys generalizing buf with
  | nil => exact absurd rfl some
  | cons key rest induction =>
    have key_short := short key mem_cons_self
    cases rest with
    | nil =>
      exact put_eq_padded size key_short fun i lt =>
        clean i fun k mem => mem_singleton.mp mem ▸ lt
    | cons next rest =>
      obtain ⟨⟨later, later_mem, le⟩, settled⟩ := settled
      rw [foldl_cons, induction settled (cons_ne_nil _ _)
        (fun k mem => short k (.tail _ mem)) (length_put size key_short)]
      · rw [getLastD_cons, getLastD_cons, getLastD_cons]
      · intro i above
        have reach := above later later_mem
        obtain ⟨k, rfl⟩ := Nat.exists_eq_add_of_le (show key.length ≤ i by omega)
        rw [getD_put]
        split
        · rfl
        · next ne =>
            refine clean _ fun other mem => ?_
            rcases mem_cons.mp mem with rfl | mem
            · omega
            · exact above other mem

theorem thisEntryBuf_eq_padded (settled : Settled (picks relation values)) :
    thisEntryBuf relation values = padded (sortKey relation values) := by
  rw [thisEntryBuf_eq]
  cases values with
  | nil => rfl
  | cons value rest =>
    refine foldl_put settled (cons_ne_nil _ _) (fun key mem => ?_) length_replicate
      fun i _ => ?_
    · obtain ⟨value, -, rfl⟩ := mem_picks mem
      exact length_fit value
    · rw [getD_eq_getElem?_getD]
      exact getElem?_getD_replicate_default_eq 0 sortIdxEntrysize i

/-- The string in the buffer is the sort key in any case. -/
theorem cString_thisEntryBuf (values : List CString) :
    cString (thisEntryBuf relation values) = sortKey relation values := by
  rw [thisEntryBuf_eq, sortKey]
  rcases (picks relation values).eq_nil_or_concat' with none | ⟨init, last, last_def⟩
  · rw [none]
    rfl
  · have mem : last ∈ picks relation values := last_def ▸ mem_concat_self
    obtain ⟨value, -, rfl⟩ := mem_picks mem
    rw [last_def, foldl_append, foldl_cons, foldl_nil,
      cString_put _ (zero_notMem_fit value), getLastD_concat]

theorem sortKey_fit (relation : Relation) (values : List CString) :
    (0 : Byte) ∉ sortKey relation values ∧
      (sortKey relation values).length < sortIdxEntrysize := by
  rw [sortKey]
  rcases (picks relation values).eq_nil_or_concat' with none | ⟨init, last, last_def⟩
  · rw [none]
    exact ⟨not_mem_nil, by decide⟩
  · have mem : last ∈ picks relation values := last_def ▸ mem_concat_self
    obtain ⟨value, -, rfl⟩ := mem_picks mem
    rw [last_def, getLastD_concat]
    exact ⟨zero_notMem_fit value, length_fit value⟩

theorem strcmp_append_zeros {a b : List Byte} (clean_a : (0 : Byte) ∉ a) (clean_b : (0 : Byte) ∉ b)
    {m n : Nat} (same : a.length + m = b.length + n) :
    strcmp (a ++ replicate m 0) (b ++ replicate n 0) = strcmp a b := by
  induction a generalizing b with
  | nil =>
    cases b with
    | nil =>
      rw [length_nil, Nat.zero_add, Nat.zero_add] at same
      rw [same]
      exact (strcmp_eq_zero.mpr rfl).trans (strcmp_eq_zero.mpr rfl).symm
    | cons y b =>
      have positive : 0 < y := Nat.pos_of_ne_zero fun zero => clean_b (zero ▸ mem_cons_self)
      rw [length_nil, length_cons] at same
      obtain ⟨k, rfl⟩ : ∃ k, m = k + 1 := ⟨m - 1, by omega⟩
      rw [nil_append, replicate_succ, cons_append]
      exact (if_neg positive.ne).trans (if_pos positive)
  | cons x a induction =>
    cases b with
    | nil =>
      have positive : 0 < x := Nat.pos_of_ne_zero fun zero => clean_a (zero ▸ mem_cons_self)
      rw [length_nil, length_cons] at same
      obtain ⟨k, rfl⟩ : ∃ k, n = k + 1 := ⟨n - 1, by omega⟩
      rw [nil_append, replicate_succ, cons_append]
      exact (if_neg positive.ne').trans (if_neg positive.not_gt)
    | cons y b =>
      rw [cons_append, cons_append, strcmp, strcmp,
        induction (fun mem => clean_a (.tail _ mem))
          (fun mem => clean_b (.tail _ mem))
          (by rw [length_cons, length_cons] at same; omega)]

theorem length_padded (short : key.length < sortIdxEntrysize) :
    (padded key).length = sortIdxEntrysize := by
  rw [padded, length_append, length_replicate]
  omega

theorem memcmp_padded {a b : List Byte} (clean_a : (0 : Byte) ∉ a) (clean_b : (0 : Byte) ∉ b)
    (short_a : a.length < sortIdxEntrysize) (short_b : b.length < sortIdxEntrysize) :
    memcmp (padded a) (padded b) sortIdxEntrysize = strcmp a b := by
  rw [memcmp, take_of_length_le (length_padded short_a).le,
    take_of_length_le (length_padded short_b).le, padded, padded]
  exact strcmp_append_zeros clean_a clean_b (by omega)

/-- A record with the database it is from. -/
structure Offered where
  databaseNo : Nat
  sysno : Nat
  deriving DecidableEq

variable {R : Type} [LinearOrder R] {numCriteria : Nat}

def numberCompare (a b : WithBot R) : Int := if a < b then -1 else if b < a then 1 else 0

/-- Compare sort keys, by their numbers or by their bytes. -/
def valueCompare (number : List Byte → Option R) (numeric : Bool) (a b : List Byte) : Int :=
  if numeric then numberCompare (number a) (number b) else strcmp a b

def keyOf (files : SortFiles (List CString)) (criterion : SortKeyInfo) (record : Offered) :
    List Byte :=
  sortKey criterion.relation (ownValues files criterion record.databaseNo record.sysno)

def criterionCompare (files : SortFiles (List CString))
    (number : List Byte → List Byte → Option R) (criterion : SortKeyInfo) (numeric : Bool)
    (a b : Offered) : Int :=
  let keyA := keyOf files criterion a
  let keyB := keyOf files criterion b
  match criterion.relation with
  | .ascending => valueCompare (number criterion.indexType) numeric keyA keyB
  | .descending => valueCompare (number criterion.indexType) numeric keyB keyA

def criteriaCompare (files : SortFiles (List CString))
    (number : List Byte → List Byte → Option R) (criteria : Fin numCriteria → SortKeyInfo)
    (numeric : Fin numCriteria → Bool) : Offered → Offered → Int :=
  lexCompare ((finRange numCriteria).map fun j =>
    criterionCompare files number (criteria j) (numeric j))

/-- A record whose buffers say what its sort keys are. -/
structure Plain (files : SortFiles (List CString))
    (number : List Byte → List Byte → Option R) (criteria : Fin numCriteria → SortKeyInfo)
    (numeric : Fin numCriteria → Bool) (record : Offered) : Prop where
  numerical : ∀ j, (criteria j).numerical record.databaseNo = numeric j
  number : ∀ j, numeric j = true →
    (number (criteria j).indexType (keyOf files (criteria j) record)).isSome = true
  settled : ∀ j, numeric j = false → Settled (picks (criteria j).relation
    (ownValues files (criteria j) record.databaseNo record.sysno))

theorem numberCompare_swap (a b : WithBot R) : numberCompare b a = -numberCompare a b := by
  rcases lt_trichotomy a b with lt | rfl | gt
  · rw [numberCompare, numberCompare, if_neg lt.not_gt, if_pos lt, if_pos lt, neg_neg]
  · rw [numberCompare, if_neg (lt_irrefl a), if_neg (lt_irrefl a), neg_zero]
  · rw [numberCompare, numberCompare, if_pos gt, if_neg gt.not_gt, if_pos gt]

theorem numberCompare_neg (a b : WithBot R) : numberCompare a b < 0 ↔ a < b := by
  rw [numberCompare]
  split
  · next lt => exact iff_of_true (by decide) lt
  · next ge => exact iff_of_false (by split <;> decide) ge

theorem numberCompare_comparator : Comparator (numberCompare (R := R)) := by
  refine .of_lt id numberCompare_neg fun a b => ?_
  rw [← Int.neg_neg_iff_pos, ← numberCompare_swap]
  exact numberCompare_neg b a

theorem valueCompare_swap (number : List Byte → Option R) (numeric : Bool) (a b : List Byte) :
    valueCompare number numeric b a = -valueCompare number numeric a b := by
  rw [valueCompare, valueCompare]
  split
  · exact numberCompare_swap _ _
  · exact strcmp_swap a b

theorem valueCompare_comparator (number : List Byte → Option R) (numeric : Bool) :
    Comparator (valueCompare number numeric) := by
  cases numeric with
  | false => exact strcmp_comparator
  | true => exact numberCompare_comparator.comap number

variable {files : SortFiles (List CString)} {number : List Byte → List Byte → Option R}
  {criteria : Fin numCriteria → SortKeyInfo} {numeric : Fin numCriteria → Bool}

theorem criteriaCompare_comparator :
    Comparator (criteriaCompare files number criteria numeric) := by
  refine lexCompare_comparator fun cmp mem => ?_
  obtain ⟨j, -, rfl⟩ := mem_map.mp mem
  have law := (valueCompare_comparator (number (criteria j).indexType) (numeric j)).comap
    (keyOf files (criteria j))
  cases relation : (criteria j).relation with
  | ascending =>
    have same : criterionCompare files number (criteria j) (numeric j) = fun a b =>
        valueCompare (number (criteria j).indexType) (numeric j)
          (keyOf files (criteria j) a) (keyOf files (criteria j) b) := by
      funext a b
      rw [criterionCompare, relation]
    exact same ▸ law
  | descending =>
    have same : criterionCompare files number (criteria j) (numeric j) = fun a b =>
        valueCompare (number (criteria j).indexType) (numeric j)
          (keyOf files (criteria j) b) (keyOf files (criteria j) a) := by
      funext a b
      rw [criterionCompare, relation]
    exact same ▸ law.flip

def entryOf (files : SortFiles (List CString)) (criteria : Fin numCriteria → SortKeyInfo)
    (record : Offered) : ZsetSortEntry numCriteria where
  sysno := record.sysno
  score := -1
  cmpBuf j := thisEntryBuf (criteria j).relation
    (ownValues files (criteria j) record.databaseNo record.sysno)

theorem diff_some (a b : R) : diff (some a) (some b) = numberCompare (a : WithBot R) b := by
  rw [diff, numberCompare]
  rcases lt_trichotomy a b with lt | rfl | gt
  · rw [if_neg lt.not_gt, if_pos lt, if_pos (WithBot.coe_lt_coe.mpr lt)]
  · rw [if_neg (lt_irrefl a), if_neg (lt_irrefl a), if_neg (lt_irrefl _), if_neg (lt_irrefl _)]
  · rw [if_pos gt, if_neg (WithBot.coe_lt_coe.mpr gt).not_gt, if_pos (WithBot.coe_lt_coe.mpr gt)]

/-- The buffers of two plain records compare as their keys do. -/
theorem rel_entryOf {new other : Offered} (plain : Plain files number criteria numeric new)
    (plain' : Plain files number criteria numeric other) (j : Fin numCriteria) :
    rel number (criteria j) new.databaseNo ((entryOf files criteria new).cmpBuf j)
        ((entryOf files criteria other).cmpBuf j) =
      valueCompare (number (criteria j).indexType) (numeric j) (keyOf files (criteria j) new)
        (keyOf files (criteria j) other) := by
  rw [rel, plain.numerical j, valueCompare, entryOf, entryOf]
  dsimp only
  cases numericJ : numeric j with
  | true =>
    obtain ⟨a, isA⟩ := Option.isSome_iff_exists.mp (plain.number j numericJ)
    obtain ⟨b, isB⟩ := Option.isSome_iff_exists.mp (plain'.number j numericJ)
    rw [if_pos rfl, if_pos rfl, cString_thisEntryBuf, cString_thisEntryBuf, ← keyOf, ← keyOf,
      isA, isB]
    exact diff_some a b
  | false =>
    rw [if_neg Bool.false_ne_true, if_neg Bool.false_ne_true,
      thisEntryBuf_eq_padded (plain.settled j numericJ),
      thisEntryBuf_eq_padded (plain'.settled j numericJ)]
    obtain ⟨clean, short⟩ := sortKey_fit (criteria j).relation
      (ownValues files (criteria j) new.databaseNo new.sysno)
    obtain ⟨clean', short'⟩ := sortKey_fit (criteria j).relation
      (ownValues files (criteria j) other.databaseNo other.sysno)
    exact memcmp_padded clean clean' short short'

theorem scanStops_iff {new other : Offered} (plain : Plain files number criteria numeric new)
    (plain' : Plain files number criteria numeric other) (js : List (Fin numCriteria)) :
    scanStops number criteria new.databaseNo (entryOf files criteria new).cmpBuf
        (entryOf files criteria other).cmpBuf js = true ↔
      lexCompare (js.map fun j => criterionCompare files number (criteria j) (numeric j))
        other new ≤ 0 := by
  induction js with
  | nil => exact iff_of_true rfl le_rfl
  | cons j js induction =>
    rw [scanStops, map_cons, lexCompare, criterionCompare, rel_entryOf plain plain' j]
    have swap := valueCompare_swap (number (criteria j).indexType) (numeric j)
      (keyOf files (criteria j) new) (keyOf files (criteria j) other)
    cases (criteria j).relation with
    | ascending =>
      dsimp only
      rw [swap]
      split
      · next ne =>
          rw [if_pos (neg_ne_zero.mpr ne), decide_eq_true_iff]
          omega
      · next zero => rw [if_neg (not_not.mpr (neg_eq_zero.mpr (not_not.mp zero))), induction]
    | descending =>
      dsimp only
      split
      · next ne =>
          rw [decide_eq_true_iff]
          omega
      · exact induction

/-- The records are offered one after the other, with the sort index as it is. -/
def insertAll (files : SortFiles (List CString)) (number : List Byte → List Byte → Option R)
    (criteria : Fin numCriteria → SortKeyInfo) (si : SortIndex) (maxEntries : Nat)
    (records : List Offered) : SortIndex × ZsetSortInfo numCriteria :=
  records.foldl (fun state record =>
    resultSetInsertSort files number criteria state.1 state.2 record.databaseNo record.sysno)
    (si, ⟨maxEntries, []⟩)

theorem sortValues_sysno (files : SortFiles (List CString)) (criterion : SortKeyInfo)
    (databaseNo : Nat) (si : SortIndex) :
    (sortValues files criterion databaseNo si).2.sysno = si.sysno := by
  rw [sortValues]
  split
  · exact SortIndex.sortRead_sysno
  · rfl

/-- What is read for an unpassed criterion is what the record has for it. -/
theorem sortValues_own {criterion : SortKeyInfo} {databaseNo : Nat} {si : SortIndex}
    (unpassed : ∀ ord, criterion.ord databaseNo = some ord → si.Unpassed files ord) :
    (sortValues files criterion databaseNo si).1 =
      ownValues files criterion databaseNo si.sysno := by
  rw [sortValues, ownValues]
  cases ord : criterion.ord databaseNo with
  | none => rfl
  | some ord' =>
    dsimp only
    rw [SortIndex.sortRead_unpassed (unpassed ord' ord)]

theorem tmpCmpBuf_own {databaseNo : Nat} {js : List (Fin numCriteria)} {si : SortIndex}
    (unpassed : Unpassed files criteria databaseNo js si) {j : Fin numCriteria} (mem : j ∈ js) :
    (tmpCmpBuf files criteria databaseNo js si).1 j =
      thisEntryBuf (criteria j).relation (ownValues files (criteria j) databaseNo si.sysno) := by
  induction js generalizing si with
  | nil => exact absurd mem not_mem_nil
  | cons i rest ih =>
    obtain ⟨own, others⟩ := unpassed
    rw [tmpCmpBuf]
    dsimp only
    split
    · next same => rw [sortValues_own own, same]
    · next other =>
        rw [ih others ((mem_cons.mp mem).resolve_left other), sortValues_sysno]

/-- In front of each record, no entry of it has been passed. -/
def EachUnpassed (files : SortFiles (List CString)) (number : List Byte → List Byte → Option R)
    (criteria : Fin numCriteria → SortKeyInfo) (si : SortIndex) (maxEntries : Nat)
    (records : List Offered) : Prop :=
  ∀ done record rest, records = done ++ record :: rest →
    Unpassed files criteria record.databaseNo (finRange numCriteria)
      ((insertAll files number criteria si maxEntries done).1.sortSysno record.sysno)

theorem insertAll_eq {si : SortIndex} {maxEntries : Nat} {records : List Offered}
    (unpassed : EachUnpassed files number criteria si maxEntries records) :
    (insertAll files number criteria si maxEntries records).2 =
      ⟨maxEntries, (offerAll (fun new other => scanStops number criteria new.databaseNo
        (entryOf files criteria new).cmpBuf (entryOf files criteria other).cmpBuf
        (finRange numCriteria)) maxEntries records).map (entryOf files criteria)⟩ := by
  induction records using reverseRecOn with
  | nil => rfl
  | append_singleton records record induction =>
    have before := induction fun done other rest same => unpassed done other (rest ++ [record]) (by
      rw [same, append_assoc, cons_append])
    have buf : (tmpCmpBuf files criteria record.databaseNo (finRange numCriteria)
        ((insertAll files number criteria si maxEntries records).1.sortSysno record.sysno)).1 =
        (entryOf files criteria record).cmpBuf :=
      funext fun j => tmpCmpBuf_own (unpassed records record [] rfl) (mem_finRange j)
    rw [insertAll, foldl_append, foldl_cons, foldl_nil, ← insertAll, resultSetInsertSort, buf,
      before, offerAll_concat]
    dsimp only
    congr 1
    exact offer_map (entryOf files criteria) _ maxEntries record _

def rankAll (relation : Relation) (maxEntries : Nat) (scored : List (Nat × Int)) : ZsetSortInfo 0 :=
  scored.foldl (fun info record => resultSetInsertRank info record.1 record.2 relation)
    ⟨maxEntries, []⟩

/-- `'A'` puts the highest score first. -/
def rankCompare (relation : Relation) (a b : Nat × Int) : Int :=
  match relation with
  | .ascending => b.2 - a.2
  | .descending => a.2 - b.2

theorem rankCompare_comparator (relation : Relation) : Comparator (rankCompare relation) := by
  cases relation
  · exact ⟨fun a b => by simp only [rankCompare]; omega,
      fun a b c => by simp only [rankCompare]; omega⟩
  · exact ⟨fun a b => by simp only [rankCompare]; omega,
      fun a b c => by simp only [rankCompare]; omega⟩

def rankEntry (record : Nat × Int) : ZsetSortEntry 0 := ⟨record.1, record.2, Fin.elim0⟩

theorem rankAll_offers {relation : Relation} (stops : Nat × Int → Nat × Int → Bool)
    (same : ∀ (info : ZsetSortInfo 0) (record : Nat × Int),
      (resultSetInsertRank info record.1 record.2 relation).entries =
        offer (fun entry => stops record (entry.sysno, entry.score)) info.maxEntries
          (rankEntry record) info.entries)
    (maxEntries : Nat) (scored : List (Nat × Int)) :
    rankAll relation maxEntries scored =
      ⟨maxEntries, (offerAll stops maxEntries scored).map rankEntry⟩ := by
  induction scored using reverseRecOn with
  | nil => rfl
  | append_singleton scored record induction =>
    have entries := same ⟨maxEntries, (offerAll stops maxEntries scored).map rankEntry⟩ record
    dsimp only at entries
    rw [offer_map rankEntry] at entries
    rw [rankAll, foldl_append, foldl_cons, foldl_nil, ← rankAll, induction,
      offerAll_concat]
    exact congrArg (ZsetSortInfo.mk maxEntries) entries

theorem rankAll_eq (relation : Relation) (maxEntries : Nat) (scored : List (Nat × Int)) :
    rankAll relation maxEntries scored =
      ⟨maxEntries, ((stableSort (rankCompare relation) scored).take maxEntries).map rankEntry⟩ := by
  cases relation with
  | ascending =>
    rw [rankAll_offers (fun new other => decide (new.2 - other.2 ≤ 0)) fun _ _ => rfl,
      offerAll_eq_take (rankCompare_comparator .ascending)]
    exact fun new _ other _ => decide_eq_true_iff
  | descending =>
    rw [rankAll_offers (fun new other => decide (new.2 - other.2 ≥ 0)) fun _ _ => rfl,
      offerAll_eq_take (rankCompare_comparator .descending)]
    intro new _ other _
    rw [decide_eq_true_iff, rankCompare]
    omega

/-- A sort index with two values of the first record and one of the second. -/
def twoValues (first : CString) : SortFiles (List CString) :=
  .isamb (fun _ => [(1, [first, ⟨[97], by decide⟩]), (2, [⟨[97], by decide⟩])]) fun _ => by simp

/-- A sort index that no file of has been read from. -/
def unread : SortIndex := ⟨0, fun _ => none⟩

/-- One criterion, in ascending order and not numerical. -/
def byValue (_j : Fin 1) : SortKeyInfo := ⟨.ascending, fun _ => some 0, fun _ => false, []⟩

theorem twoValues_unpassed (first : CString) :
    EachUnpassed (R := Nat) (twoValues first) (fun _ _ => none) byValue unread 1
      [⟨0, 1⟩, ⟨0, 2⟩] := by
  intro done record rest same
  rcases done with _ | ⟨one, _ | ⟨two, more⟩⟩
  · cases same
    refine ⟨fun ord _ e mem => ?_, trivial⟩
    cases mem
  · cases same
    refine ⟨fun ord some e mem => ?_, trivial⟩
    cases some
    cases mem with
    | head => exact (show (1 : Nat) ≠ 2 by decide)
    | tail _ mem => cases mem
  · have lengths := congrArg length same
    simp only [length_cons, length_nil, length_append] at lengths
    omega

end Zebra.Zsets
