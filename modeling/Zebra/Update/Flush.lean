import Mathlib.Algebra.BigOperators.Group.List.Basic
import Mathlib.Data.List.Count
import Mathlib.Data.List.Induction
import Mathlib.Data.List.Nodup
import Zebra.Lib.Varint

/-!
# Keys of a record and how they are flushed

`reckeys.c` collects the keys of one record, `extract_flush_record_keys2` of `extract.c` writes the
difference between the old and the new keys to the key block and keeps the statistics of `zinfo.c`.
-/

namespace Zebra.Update

open List Function
open Option (elim_some elim_none getD_some getD_none isNone_none isNone_some toList)

/-- One key of a record with its string; the components are signed 64-bit numbers. -/
structure RecKey where
  /-- `str[0..slen)` -/
  str : List Byte
  /-- `key.mem[0..len)` -/
  key : List Int
  deriving DecidableEq

/-- `key.mem[0]` -/
def RecKey.ord (entry : RecKey) : Int := entry.key.headD 0

/-- `key.mem[1]`: the record id that the filter gave, or 0. -/
def RecKey.recordId (entry : RecKey) : Int := entry.key.getD 1 0

/-- `struct zebra_rec_keys_t_` -/
structure RecKeys where
  /-- The content of `buf`. -/
  entries : List RecKey
  customRecordId : Int

namespace RecKeys

/-- `zebra_rec_keys_reset`; the custom record id stays. -/
def reset (keys : RecKeys) : RecKeys := { keys with entries := [] }

/-- `zebra_rec_keys_write`: a key that is there already is omitted. -/
def write (keys : RecKeys) (entry : RecKey) : RecKeys where
  entries := if entry ∈ keys.entries then keys.entries else keys.entries ++ [entry]
  customRecordId := if entry.recordId ≠ 0 then entry.recordId else keys.customRecordId

def writeAll (keys : RecKeys) (entries : List RecKey) : RecKeys := entries.foldl write keys

theorem write_nodup {keys : RecKeys} (nodup : keys.entries.Nodup) (entry : RecKey) :
    (keys.write entry).entries.Nodup := by
  unfold write
  split
  · exact nodup
  · rename_i absent
    exact nodup.append (nodup_singleton entry) (by simpa using absent)

theorem writeAll_nodup {keys : RecKeys} (nodup : keys.entries.Nodup) (entries : List RecKey) :
    (keys.writeAll entries).entries.Nodup := by
  induction entries generalizing keys with
  | nil => exact nodup
  | cons entry entries induction => exact induction (write_nodup nodup entry)

theorem write_ne_nil (keys : RecKeys) (entry : RecKey) : (keys.write entry).entries ≠ [] := by
  unfold write
  split
  · rename_i mem
    exact ne_nil_of_mem mem
  · simp

end RecKeys

/-- The counters of a database and of its index ordinals. -/
structure Explain where
  recordCount : Int
  recordBytes : Int
  /-- `term_occurrences` of an ordinal -/
  termOccurrences : Int → Int
  /-- `doc_occurrences` of an ordinal -/
  docOccurrences : Int → Int

namespace Explain

def recordCountIncrement (zei : Explain) (adjustNum : Int) : Explain :=
  { zei with recordCount := zei.recordCount + adjustNum }

def recordBytesIncrement (zei : Explain) (adjustNum : Int) : Explain :=
  { zei with recordBytes := zei.recordBytes + adjustNum }

def ordAdjustOccurrences (zei : Explain) (ord termDelta docDelta : Int) : Explain :=
  { zei with
    termOccurrences := Function.update zei.termOccurrences ord (zei.termOccurrences ord + termDelta)
    docOccurrences := Function.update zei.docOccurrences ord (zei.docOccurrences ord + docDelta) }

theorem ordAdjustOccurrences_self (zei : Explain) (ord termDelta docDelta : Int) :
    (zei.ordAdjustOccurrences ord termDelta docDelta).termOccurrences ord =
        zei.termOccurrences ord + termDelta ∧
      (zei.ordAdjustOccurrences ord termDelta docDelta).docOccurrences ord =
        zei.docOccurrences ord + docDelta :=
  ⟨update_self _ _ _, update_self _ _ _⟩

theorem ordAdjustOccurrences_of_ne (zei : Explain) {ord other : Int} (termDelta docDelta : Int)
    (ne : other ≠ ord) :
    (zei.ordAdjustOccurrences ord termDelta docDelta).termOccurrences other =
        zei.termOccurrences other ∧
      (zei.ordAdjustOccurrences ord termDelta docDelta).docOccurrences other =
        zei.docOccurrences other :=
  ⟨update_of_ne ne _ _, update_of_ne ne _ _⟩

end Explain

/-- One round of the first loop of `extract_rec_keys_adjust`, on `ord_list`. -/
def noteOrd (ordList : List (Int × Nat)) (ord : Int) : List (Int × Nat) :=
  if ord ∈ ordList.map Prod.fst then
    ordList.map fun p => if p.1 = ord then (p.1, p.2 + 1) else p
  else (ord, 1) :: ordList

/-- `ord_list` for the keys: how often each ordinal occurs. -/
def ordStats (entries : List RecKey) : List (Int × Nat) :=
  entries.foldl (fun ordList entry => noteOrd ordList entry.ord) []

def recKeysAdjust (zei : Explain) (isInsert : Bool) (entries : List RecKey) : Explain :=
  (ordStats entries).foldl (fun zei p =>
    if isInsert then zei.ordAdjustOccurrences p.1 p.2 1
    else zei.ordAdjustOccurrences p.1 (-p.2) (-1)) zei

def ordCount (ord : Int) (entries : List RecKey) : Nat := (entries.map RecKey.ord).count ord

/-- How many keys a list of ordinals has for one of them. -/
theorem noteOrd_spec {ordList : List (Int × Nat)} {ords : List Int}
    (nodup : (ordList.map Prod.fst).Nodup)
    (counts : ∀ ord n, (ord, n) ∈ ordList ↔ n = ords.count ord ∧ ord ∈ ords) (ord : Int) :
    ((noteOrd ordList ord).map Prod.fst).Nodup ∧
      ∀ other n, (other, n) ∈ noteOrd ordList ord ↔
        n = (ords ++ [ord]).count other ∧ other ∈ ords ++ [ord] := by
  unfold noteOrd
  split
  · rename_i listed
    have firsts : (ordList.map fun p => if p.1 = ord then (p.1, p.2 + 1) else p).map Prod.fst =
        ordList.map Prod.fst := by
      rw [map_map]
      refine map_congr_left fun p _ => ?_
      simp only [comp_apply]
      split <;> rfl
    refine ⟨firsts ▸ nodup, fun other n => ?_⟩
    obtain ⟨⟨ord', m⟩, mem, rfl⟩ := mem_map.mp listed
    have seen := ((counts ord' m).mp mem).2
    rw [mem_map, count_append, mem_append, mem_singleton]
    by_cases same : other = ord'
    · subst same
      simp only [count_singleton_self]
      constructor
      · rintro ⟨⟨o, k⟩, mem', eq⟩
        split at eq
        · cases eq
          exact ⟨by rw [((counts _ _).mp mem').1], .inl seen⟩
        · cases eq
          exact absurd rfl ‹_›
      · rintro ⟨rfl, -⟩
        exact ⟨(other, ords.count other), (counts _ _).mpr ⟨rfl, seen⟩, by simp⟩
    · rw [count_singleton, if_neg (by simpa using Ne.symm same), Nat.add_zero]
      constructor
      · rintro ⟨⟨o, k⟩, mem', eq⟩
        split at eq
        · cases eq
          exact absurd ‹_› same
        · cases eq
          exact ⟨((counts _ _).mp mem').1, .inl ((counts _ _).mp mem').2⟩
      · rintro ⟨rfl, mem' | mem'⟩
        · exact ⟨(other, ords.count other), (counts _ _).mpr ⟨rfl, mem'⟩, by simp [same]⟩
        · exact absurd mem' same
  · rename_i unlisted
    have unseen : ord ∉ ords := fun seen =>
      unlisted (mem_map_of_mem ((counts ord _).mpr ⟨rfl, seen⟩))
    refine ⟨nodup_cons.mpr ⟨unlisted, nodup⟩, fun other n => ?_⟩
    rw [mem_cons, count_append, mem_append, mem_singleton, counts]
    by_cases same : other = ord
    · subst same
      simp [count_eq_zero_of_not_mem unseen, unseen]
    · rw [count_singleton, if_neg (by simpa using Ne.symm same)]
      simp [same]

theorem ordStats_spec (entries : List RecKey) :
    ((ordStats entries).map Prod.fst).Nodup ∧
      ∀ ord n, (ord, n) ∈ ordStats entries ↔
        n = ordCount ord entries ∧ ord ∈ entries.map RecKey.ord := by
  induction entries using List.reverseRecOn with
  | nil => simp [ordStats]
  | append_singleton entries entry induction =>
    have step : ordStats (entries ++ [entry]) = noteOrd (ordStats entries) entry.ord := by
      simp [ordStats, foldl_append]
    rw [step]
    have spec := noteOrd_spec induction.1 induction.2 entry.ord
    rwa [← map_singleton, ← map_append] at spec

/-- Adjusting over a list of ordinals that are all different. -/
theorem adjust_fold (isInsert : Bool) (ordList : List (Int × Nat))
    (nodup : (ordList.map Prod.fst).Nodup) (zei : Explain) (sign : Int)
    (sign_eq : sign = if isInsert then 1 else -1) :
    let zei' := ordList.foldl (fun zei p =>
      if isInsert then zei.ordAdjustOccurrences p.1 p.2 1
      else zei.ordAdjustOccurrences p.1 (-p.2) (-1)) zei
    zei'.recordCount = zei.recordCount ∧ zei'.recordBytes = zei.recordBytes ∧
      (∀ ord ∉ ordList.map Prod.fst, zei'.termOccurrences ord = zei.termOccurrences ord ∧
        zei'.docOccurrences ord = zei.docOccurrences ord) ∧
      ∀ ord n, (ord, n) ∈ ordList →
        zei'.termOccurrences ord = zei.termOccurrences ord + sign * n ∧
          zei'.docOccurrences ord = zei.docOccurrences ord + sign := by
  induction ordList generalizing zei with
  | nil => simp
  | cons p ordList induction =>
    rw [map_cons, nodup_cons] at nodup
    have first : (if isInsert then zei.ordAdjustOccurrences p.1 p.2 1
        else zei.ordAdjustOccurrences p.1 (-p.2) (-1)) =
        zei.ordAdjustOccurrences p.1 (sign * p.2) sign := by
      cases isInsert <;> simp [sign_eq]
    obtain ⟨count, bytes, others, own⟩ :=
      induction nodup.2 (zei.ordAdjustOccurrences p.1 (sign * p.2) sign)
    intro zei'
    have fold : zei' = ordList.foldl (fun zei p =>
        if isInsert then zei.ordAdjustOccurrences p.1 p.2 1
        else zei.ordAdjustOccurrences p.1 (-p.2) (-1))
          (zei.ordAdjustOccurrences p.1 (sign * p.2) sign) := by
      rw [← first]
      rfl
    rw [← fold] at count bytes others own
    refine ⟨count, bytes, fun ord absent => ?_, fun ord n mem => ?_⟩
    · rw [map_cons, mem_cons, not_or] at absent
      rw [(others ord absent.2).1, (others ord absent.2).2]
      exact Explain.ordAdjustOccurrences_of_ne zei _ _ absent.1
    · rcases mem_cons.mp mem with rfl | mem
      · rw [(others ord nodup.1).1, (others ord nodup.1).2]
        exact Explain.ordAdjustOccurrences_self zei _ _ _
      · have ne : ord ≠ p.1 := fun same => nodup.1 (same ▸ mem_map_of_mem mem)
        obtain ⟨term_same, doc_same⟩ :=
          Explain.ordAdjustOccurrences_of_ne zei (sign * p.2) sign ne
        rw [(own ord n mem).1, (own ord n mem).2, term_same, doc_same]
        exact ⟨rfl, rfl⟩

theorem recKeysAdjust_spec (zei : Explain) (isInsert : Bool) (entries : List RecKey) (sign : Int)
    (sign_eq : sign = if isInsert then 1 else -1) :
    (recKeysAdjust zei isInsert entries).recordCount = zei.recordCount ∧
      (recKeysAdjust zei isInsert entries).recordBytes = zei.recordBytes ∧
      ∀ ord,
        (recKeysAdjust zei isInsert entries).termOccurrences ord =
          zei.termOccurrences ord + sign * ordCount ord entries ∧
        (recKeysAdjust zei isInsert entries).docOccurrences ord =
          zei.docOccurrences ord + sign * (if ord ∈ entries.map RecKey.ord then 1 else 0) := by
  obtain ⟨nodup, stats⟩ := ordStats_spec entries
  obtain ⟨count, bytes, others, own⟩ := adjust_fold isInsert _ nodup zei sign sign_eq
  refine ⟨count, bytes, fun ord => ?_⟩
  by_cases seen : ord ∈ entries.map RecKey.ord
  · have adjusted := own ord _ ((stats ord _).mpr ⟨rfl, seen⟩)
    rw [if_pos seen, mul_one]
    exact adjusted
  · have absent : ord ∉ (ordStats entries).map Prod.fst := by
      intro mem
      obtain ⟨⟨ord', n⟩, listed, rfl⟩ := mem_map.mp mem
      exact seen ((stats ord' n).mp listed).2
    have zero : ordCount ord entries = 0 := count_eq_zero_of_not_mem seen
    rw [if_neg seen, zero, Nat.cast_zero, mul_zero, add_zero, add_zero]
    exact others ord absent

/-- What a key is in the index: the ordinal and string that name the list, and the key in it. -/
structure Posting where
  /-- `ch` -/
  ord : Int
  /-- `str_buf[0..str_len)` -/
  str : List Byte
  /-- `key_out` -/
  key : List Int
  deriving DecidableEq

/-- One entry of the key block, with the record it is written for. -/
structure KeyWrite where
  sysno : Nat
  posting : Posting
  /-- `cmd` -/
  insert : Bool
  deriving DecidableEq

abbrev KeyBlock := List KeyWrite

/-- What `key_block_write` makes of a key of a record. -/
def RecKey.posting (staticRankEnable : Bool) (sysno : Nat) (staticrank : Int) (keyIn : RecKey) :
    Posting where
  ord := keyIn.ord
  str := keyIn.str
  key := (if staticRankEnable then [staticrank] else []) ++
    (if keyIn.recordId ≠ 0 then keyIn.recordId else sysno) :: keyIn.key.drop 2

/-- `key_block_write`; an error is the failed assertion on the rank. -/
def keyBlockWrite (staticRankEnable : Bool) (p : KeyBlock) (sysno : Nat) (keyIn : RecKey)
    (cmd : Bool) (staticrank : Int) : Except KeyBlock KeyBlock :=
  if staticRankEnable ∧ staticrank < 0 then .error p
  else .ok (p ++ [⟨sysno, keyIn.posting staticRankEnable sysno staticrank, cmd⟩])

/-- What the rounds of the loop of `extract_flush_record_keys2` read: a deleted and an inserted key,
or one of them when the other list has ended. -/
def readPairs : List RecKey → List RecKey → List (Option RecKey × Option RecKey)
  | [], insKeys => insKeys.map fun ins => (none, some ins)
  | del :: delKeys, [] => (some del, none) :: readPairs delKeys []
  | del :: delKeys, ins :: insKeys => (some del, some ins) :: readPairs delKeys insKeys

def flushPair (staticRankEnable : Bool) (sysno : Nat) (insRank delRank : Int) (p : KeyBlock)
    (pair : Option RecKey × Option RecKey) : Except KeyBlock KeyBlock :=
  if insRank = delRank ∧ pair.1 = pair.2 then .ok p
  else do
    let p ← pair.1.elim (.ok p) fun del =>
      keyBlockWrite staticRankEnable p sysno del false delRank
    pair.2.elim (.ok p) fun ins => keyBlockWrite staticRankEnable p sysno ins true insRank

/-- `extract_flush_record_keys2`; a missing list is a null pointer. -/
def flushRecordKeys2 (staticRankEnable : Bool) (zei : Explain) (p : KeyBlock) (sysno : Nat)
    (insKeys : Option (List RecKey)) (insRank : Int)
    (delKeys : Option (List RecKey)) (delRank : Int) : Explain × Except KeyBlock KeyBlock :=
  let zei := insKeys.elim zei fun insKeys =>
    let zei := recKeysAdjust zei true insKeys
    if delKeys.isNone then zei.recordCountIncrement 1 else zei
  let zei := delKeys.elim zei fun delKeys =>
    let zei := recKeysAdjust zei false delKeys
    if insKeys.isNone then zei.recordCountIncrement (-1) else zei
  (zei, (readPairs (delKeys.getD []) (insKeys.getD [])).foldlM
    (flushPair staticRankEnable sysno insRank delRank) p)

namespace KeyBlock

/-- Inserts of a posting for a record, less its deletes. -/
def net (p : KeyBlock) (sysno : Nat) (posting : Posting) : Int :=
  p.count ⟨sysno, posting, true⟩ - p.count ⟨sysno, posting, false⟩

theorem net_append_singleton (p : KeyBlock) (w : KeyWrite) (sysno : Nat) (posting : Posting) :
    net (p ++ [w]) sysno posting = net p sysno posting +
      if w.sysno = sysno ∧ w.posting = posting then (if w.insert then 1 else -1) else 0 := by
  obtain ⟨sysno', posting', insert⟩ := w
  simp only [net, count_append, count_singleton, beq_iff_eq, KeyWrite.mk.injEq,
    Nat.cast_add]
  cases insert <;> by_cases same : sysno' = sysno ∧ posting' = posting <;>
    simp [same] <;> omega

end KeyBlock

section

variable {staticRankEnable : Bool} {sysno : Nat} {insRank delRank : Int} {p : KeyBlock}

/-- How often a key of the list is written as the posting. -/
def writtenCount (staticRankEnable : Bool) (sysno : Nat) (rank : Int) (entries : List RecKey)
    (posting : Posting) : Nat :=
  (entries.map (RecKey.posting staticRankEnable sysno rank)).count posting

def RankOk (staticRankEnable : Bool) (rank : Int) : Prop := staticRankEnable → 0 ≤ rank

theorem keyBlockWrite_ok {rank : Int} (rank_ok : RankOk staticRankEnable rank) (keyIn : RecKey)
    (cmd : Bool) :
    keyBlockWrite staticRankEnable p sysno keyIn cmd rank =
      .ok (p ++ [⟨sysno, keyIn.posting staticRankEnable sysno rank, cmd⟩]) := by
  refine if_neg ?_
  rintro ⟨enabled, negative⟩
  have := rank_ok enabled
  omega

def pairDelta (staticRankEnable : Bool) (sysno : Nat) (insRank delRank : Int)
    (pair : Option RecKey × Option RecKey) (posting : Posting) : Int :=
  writtenCount staticRankEnable sysno insRank pair.2.toList posting -
    writtenCount staticRankEnable sysno delRank pair.1.toList posting

def pairPostings (staticRankEnable : Bool) (sysno : Nat) (insRank delRank : Int)
    (pair : Option RecKey × Option RecKey) : List Posting :=
  pair.1.toList.map (RecKey.posting staticRankEnable sysno delRank) ++
    pair.2.toList.map (RecKey.posting staticRankEnable sysno insRank)

theorem writtenCount_nil (rank : Int) (posting : Posting) :
    writtenCount staticRankEnable sysno rank [] posting = 0 := rfl

theorem writtenCount_cons (rank : Int) (entry : RecKey) (entries : List RecKey)
    (posting : Posting) :
    writtenCount staticRankEnable sysno rank (entry :: entries) posting =
      writtenCount staticRankEnable sysno rank entries posting +
        if entry.posting staticRankEnable sysno rank = posting then 1 else 0 := by
  simp only [writtenCount, map_cons, count_cons, beq_iff_eq]

theorem writeKey_spec {rank : Int} {cmd : Bool} {keyIn : Option RecKey} {p' : KeyBlock}
    (written : keyIn.elim (.ok p) (fun keyIn =>
      keyBlockWrite staticRankEnable p sysno keyIn cmd rank) = .ok p') :
    (∀ other posting, p'.net other posting = p.net other posting +
      if sysno = other then (if cmd then 1 else -1) *
        (writtenCount staticRankEnable sysno rank keyIn.toList posting : Int) else 0) ∧
    ∀ w ∈ p', w ∈ p ∨ w.sysno = sysno ∧
      w.posting ∈ keyIn.toList.map (RecKey.posting staticRankEnable sysno rank) := by
  cases keyIn with
  | none =>
    cases written
    exact ⟨fun other posting => by simp [writtenCount], fun w mem => .inl mem⟩
  | some keyIn =>
    rw [elim_some, keyBlockWrite] at written
    split at written
    · cases written
    · cases written
      refine ⟨fun other posting => ?_, fun w mem => ?_⟩
      · rw [KeyBlock.net_append_singleton, Option.toList_some, writtenCount_cons,
          writtenCount_nil]
        by_cases own : sysno = other <;>
          by_cases this_one : keyIn.posting staticRankEnable sysno rank = posting <;>
            simp [own, this_one]
      · rcases mem_append.mp mem with mem | mem
        · exact .inl mem
        · rw [mem_singleton] at mem
          subst mem
          exact .inr ⟨rfl, by simp⟩

theorem flushPair_spec {pair : Option RecKey × Option RecKey} {p' : KeyBlock}
    (written : flushPair staticRankEnable sysno insRank delRank p pair = .ok p') :
    (∀ other posting, p'.net other posting = p.net other posting +
      if sysno = other then pairDelta staticRankEnable sysno insRank delRank pair posting else 0) ∧
    ∀ w ∈ p', w ∈ p ∨ w.sysno = sysno ∧
      w.posting ∈ pairPostings staticRankEnable sysno insRank delRank pair := by
  obtain ⟨del, ins⟩ := pair
  by_cases same : insRank = delRank ∧ del = ins
  · rw [flushPair, if_pos same] at written
    cases written
    obtain ⟨rfl, rfl⟩ := same
    exact ⟨fun other posting => by simp [pairDelta], fun w mem => .inl mem⟩
  · rw [flushPair, if_neg same] at written
    cases deleted : del.elim (.ok p) fun del =>
        keyBlockWrite staticRankEnable p sysno del false delRank with
    | error p₁ =>
      simp only [deleted] at written
      cases written
    | ok p₁ =>
      simp only [deleted] at written
      obtain ⟨net₁, mem₁⟩ := writeKey_spec deleted
      obtain ⟨net₂, mem₂⟩ := writeKey_spec (p := p₁) written
      refine ⟨fun other posting => ?_, fun w mem => ?_⟩
      · rw [net₂, net₁, pairDelta]
        split
        · simp only [if_true, Bool.false_eq_true, if_false]
          ring
        · ring
      · rw [pairPostings, mem_append]
        rcases mem₂ w mem with mem | ⟨own, mem⟩
        · rcases mem₁ w mem with mem | ⟨own, mem⟩
          · exact .inl mem
          · exact .inr ⟨own, .inl mem⟩
        · exact .inr ⟨own, .inr mem⟩

theorem flushPairs_spec {pairs : List (Option RecKey × Option RecKey)} {p' : KeyBlock}
    (written : pairs.foldlM (flushPair staticRankEnable sysno insRank delRank) p = .ok p') :
    (∀ other posting, p'.net other posting = p.net other posting +
      if sysno = other then
        (pairs.map fun pair =>
          pairDelta staticRankEnable sysno insRank delRank pair posting).sum else 0) ∧
    ∀ w ∈ p', w ∈ p ∨ w.sysno = sysno ∧
      w.posting ∈ pairs.flatMap (pairPostings staticRankEnable sysno insRank delRank) := by
  induction pairs generalizing p with
  | nil =>
    cases written
    exact ⟨fun other posting => by simp, fun w mem => .inl mem⟩
  | cons pair pairs induction =>
    rw [foldlM_cons] at written
    cases first : flushPair staticRankEnable sysno insRank delRank p pair with
    | error p₁ =>
      rw [first] at written
      cases written
    | ok p₁ =>
      rw [first] at written
      obtain ⟨net₁, mem₁⟩ := flushPair_spec first
      obtain ⟨net₂, mem₂⟩ := induction (p := p₁) written
      refine ⟨fun other posting => ?_, fun w mem => ?_⟩
      · rw [net₂, net₁, map_cons, sum_cons]
        split <;> ring
      · rw [flatMap_cons, mem_append]
        rcases mem₂ w mem with mem | ⟨own, mem⟩
        · rcases mem₁ w mem with mem | ⟨own, mem⟩
          · exact .inl mem
          · exact .inr ⟨own, .inl mem⟩
        · exact .inr ⟨own, .inr mem⟩

theorem readPairs_delta (delKeys insKeys : List RecKey) (posting : Posting) :
    ((readPairs delKeys insKeys).map fun pair =>
      pairDelta staticRankEnable sysno insRank delRank pair posting).sum =
        writtenCount staticRankEnable sysno insRank insKeys posting -
          writtenCount staticRankEnable sysno delRank delKeys posting := by
  induction delKeys, insKeys using readPairs.induct with
  | case1 insKeys =>
    induction insKeys with
    | nil => simp [readPairs, writtenCount]
    | cons ins insKeys induction =>
      simp only [readPairs, map_cons, sum_cons] at induction ⊢
      rw [induction]
      simp only [pairDelta, toList, writtenCount_cons, writtenCount_nil]
      push_cast
      ring
  | case2 del delKeys induction =>
    rw [readPairs, map_cons, sum_cons, induction]
    simp only [pairDelta, toList, writtenCount_cons, writtenCount_nil]
    push_cast
    ring
  | case3 del delKeys ins insKeys induction =>
    rw [readPairs, map_cons, sum_cons, induction]
    simp only [pairDelta, toList, writtenCount_cons, writtenCount_nil]
    push_cast
    ring

theorem readPairs_postings (delKeys insKeys : List RecKey) (posting : Posting)
    (mem : posting ∈ (readPairs delKeys insKeys).flatMap
      (pairPostings staticRankEnable sysno insRank delRank)) :
    posting ∈ delKeys.map (RecKey.posting staticRankEnable sysno delRank) ∨
      posting ∈ insKeys.map (RecKey.posting staticRankEnable sysno insRank) := by
  induction delKeys, insKeys using readPairs.induct with
  | case1 insKeys =>
    right
    simpa [readPairs, pairPostings, flatMap_map, eq_comm] using mem
  | case2 del delKeys induction =>
    rw [readPairs, flatMap_cons, mem_append] at mem
    rcases mem with mem | mem
    · left
      simp only [pairPostings, toList, map_cons, map_nil, append_nil,
        mem_singleton] at mem
      exact mem ▸ mem_cons_self
    · rcases induction mem with mem | mem
      · exact .inl (.tail _ mem)
      · exact .inr mem
  | case3 del delKeys ins insKeys induction =>
    rw [readPairs, flatMap_cons, mem_append] at mem
    rcases mem with mem | mem
    · simp only [pairPostings, toList, map_cons, map_nil, mem_append,
        mem_singleton] at mem
      rcases mem with rfl | rfl
      · exact .inl mem_cons_self
      · exact .inr mem_cons_self
    · rcases induction mem with mem | mem
      · exact .inl (.tail _ mem)
      · exact .inr (.tail _ mem)

/-- What a flush that goes through writes: the balance of the record changes by the new keys less
the old ones, whatever pairs were skipped. -/
theorem flushKeys_spec {zei : Explain} {insKeys delKeys : Option (List RecKey)} {p' : KeyBlock}
    (written : (flushRecordKeys2 staticRankEnable zei p sysno insKeys insRank delKeys delRank).2 =
      .ok p') :
    (∀ other posting, p'.net other posting = p.net other posting +
      if sysno = other then
        (writtenCount staticRankEnable sysno insRank (insKeys.getD []) posting : Int) -
          writtenCount staticRankEnable sysno delRank (delKeys.getD []) posting else 0) ∧
    ∀ w ∈ p', w ∈ p ∨ w.sysno = sysno ∧
      (w.posting ∈ (delKeys.getD []).map (RecKey.posting staticRankEnable sysno delRank) ∨
        w.posting ∈ (insKeys.getD []).map (RecKey.posting staticRankEnable sysno insRank)) := by
  obtain ⟨net, mem⟩ := flushPairs_spec written
  refine ⟨fun other posting => ?_, fun w mem' => ?_⟩
  · rw [net, readPairs_delta]
  · rcases mem w mem' with mem | ⟨own, mem⟩
    · exact .inl mem
    · exact .inr ⟨own, readPairs_postings _ _ _ mem⟩

/-- With ranks that are not negative every round goes through. -/
theorem flushPair_ok (sysno : Nat) (ins_ok : RankOk staticRankEnable insRank)
    (del_ok : RankOk staticRankEnable delRank) (pair : Option RecKey × Option RecKey)
    (p : KeyBlock) : ∃ p', flushPair staticRankEnable sysno insRank delRank p pair = .ok p' := by
  have write (cmd : Bool) {rank : Int} (rank_ok : RankOk staticRankEnable rank)
      (keyIn : Option RecKey) (p : KeyBlock) : ∃ p', keyIn.elim (.ok p) (fun keyIn =>
        keyBlockWrite staticRankEnable p sysno keyIn cmd rank) = .ok p' := by
    cases keyIn with
    | none => exact ⟨p, rfl⟩
    | some keyIn => exact ⟨_, keyBlockWrite_ok rank_ok keyIn cmd⟩
  unfold flushPair
  split
  · exact ⟨p, rfl⟩
  · obtain ⟨p₁, deleted⟩ := write false del_ok pair.1 p
    obtain ⟨p₂, inserted⟩ := write true ins_ok pair.2 p₁
    exact ⟨p₂, by rw [deleted]; exact inserted⟩

theorem flushKeys_ok (sysno : Nat) (ins_ok : RankOk staticRankEnable insRank)
    (del_ok : RankOk staticRankEnable delRank) (zei : Explain) (p : KeyBlock)
    (insKeys delKeys : Option (List RecKey)) :
    ∃ p', (flushRecordKeys2 staticRankEnable zei p sysno insKeys insRank delKeys delRank).2 =
      .ok p' := by
  simp only [flushRecordKeys2]
  generalize readPairs (delKeys.getD []) (insKeys.getD []) = pairs
  induction pairs generalizing p with
  | nil => exact ⟨p, rfl⟩
  | cons pair pairs induction =>
    obtain ⟨p₁, first⟩ := flushPair_ok sysno ins_ok del_ok pair p
    obtain ⟨p₂, rest⟩ := induction p₁
    refine ⟨p₂, ?_⟩
    rw [foldlM_cons, first]
    exact rest

theorem flushStatistics_spec (zei : Explain) (p : KeyBlock)
    (insKeys delKeys : Option (List RecKey)) :
    let zei' := (flushRecordKeys2 staticRankEnable zei p sysno insKeys insRank delKeys delRank).1
    zei'.recordCount = zei.recordCount +
        ((if insKeys.isSome ∧ delKeys.isNone then 1 else 0) -
          (if delKeys.isSome ∧ insKeys.isNone then 1 else 0)) ∧
      zei'.recordBytes = zei.recordBytes ∧
      ∀ ord,
        zei'.termOccurrences ord = zei.termOccurrences ord +
          ((ordCount ord (insKeys.getD []) : Int) - ordCount ord (delKeys.getD [])) ∧
        zei'.docOccurrences ord = zei.docOccurrences ord +
          ((if ord ∈ (insKeys.getD []).map RecKey.ord then 1 else 0) -
            (if ord ∈ (delKeys.getD []).map RecKey.ord then 1 else 0)) := by
  cases insKeys with
  | none =>
    cases delKeys with
    | none => simp [flushRecordKeys2, ordCount]
    | some delKeys =>
      obtain ⟨count, bytes, occurrences⟩ := recKeysAdjust_spec zei false delKeys (-1) (by simp)
      refine ⟨?_, ?_, fun ord => ⟨?_, ?_⟩⟩
      · simp [flushRecordKeys2, Explain.recordCountIncrement, count]
      · simp [flushRecordKeys2, Explain.recordCountIncrement, bytes]
      · simp [flushRecordKeys2, Explain.recordCountIncrement, (occurrences ord).1, ordCount]
      · simp only [flushRecordKeys2, Explain.recordCountIncrement, elim_none,
          elim_some, isNone_none, if_true, (occurrences ord).2,
          getD_none, getD_some, map_nil, not_mem_nil, if_false]
        ring
  | some insKeys =>
    obtain ⟨count, bytes, occurrences⟩ := recKeysAdjust_spec zei true insKeys 1 (by simp)
    cases delKeys with
    | none =>
      refine ⟨?_, ?_, fun ord => ⟨?_, ?_⟩⟩
      · simp [flushRecordKeys2, Explain.recordCountIncrement, count]
      · simp [flushRecordKeys2, Explain.recordCountIncrement, bytes]
      · simp [flushRecordKeys2, Explain.recordCountIncrement, (occurrences ord).1, ordCount]
      · simp only [flushRecordKeys2, Explain.recordCountIncrement, elim_none,
          elim_some, isNone_none, if_true, (occurrences ord).2,
          getD_none, getD_some, map_nil, not_mem_nil, if_false]
        ring
    | some delKeys =>
      obtain ⟨count', bytes', occurrences'⟩ :=
        recKeysAdjust_spec (recKeysAdjust zei true insKeys) false delKeys (-1) (by simp)
      refine ⟨?_, ?_, fun ord => ⟨?_, ?_⟩⟩
      · simp [flushRecordKeys2, count, count']
      · simp [flushRecordKeys2, bytes, bytes']
      · simp only [flushRecordKeys2, elim_some, isNone_some, Bool.false_eq_true,
          if_false, getD_some, (occurrences' ord).1, (occurrences ord).1]
        ring
      · simp only [flushRecordKeys2, elim_some, isNone_some, Bool.false_eq_true,
          if_false, getD_some, (occurrences' ord).2, (occurrences ord).2]
        ring

end

end Zebra.Update
