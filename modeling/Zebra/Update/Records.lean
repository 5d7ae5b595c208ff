import Mathlib.Algebra.BigOperators.Group.List.Basic
import Mathlib.Algebra.GroupWithZero.Nat
import Mathlib.Data.List.Nodup

/-!
# The record store and its cache

`records.c`: records are got, put and deleted through a write-back cache.  An entry of the cache
has a flag that tells what is to be done with it when the cache is flushed; the block files are
taken as the map from a number to the record written last under it.
-/

namespace Zebra.Update

open List Function

inductive RecordCacheFlag where
  | nop
  | write
  | new
  | delete
  deriving DecidableEq

structure RecordCacheEntry (ρ : Type) where
  sysno : Nat
  /-- `rec->info` -/
  record : ρ
  flag : RecordCacheFlag

/-- What the files hold under the number of an entry once the entry is flushed. -/
def RecordCacheEntry.stored {ρ : Type} (e : RecordCacheEntry ρ) (old : Option ρ) : Option ρ :=
  match e.flag with
  | .new => some e.record
  | .write => some e.record
  | .delete => none
  | .nop => old

/-- `struct records_info` -/
structure Records (ρ : Type) where
  /-- `head.index_last`: the number of the next new record. -/
  indexLast : Nat
  noRecords : Int
  compressionChunkSize : Nat
  /-- `record_cache[0..cache_cur)` -/
  cache : List (RecordCacheEntry ρ)
  disk : Nat → Option ρ

def usualRange : Nat := 6000000000

def cacheMax : Nat := 400

namespace Records

variable {ρ : Type}

/-- One round of `rec_write_multiple`. -/
def writeEntry (disk : Nat → Option ρ) (e : RecordCacheEntry ρ) : Nat → Option ρ :=
  Function.update disk e.sysno (e.stored (disk e.sysno))

/-- `rec_write_multiple`, over the entries that are flushed. -/
def writeMultiple (disk : Nat → Option ρ) (entries : List (RecordCacheEntry ρ)) :
    Nat → Option ρ :=
  entries.foldl writeEntry disk

def cacheFlush (p : Records ρ) (saveCount : Nat) : Records ρ :=
  let saveCount := if saveCount ≥ p.cache.length then 0 else saveCount
  { p with
    disk := writeMultiple p.disk (p.cache.take (p.cache.length - saveCount))
    cache := p.cache.drop (p.cache.length - saveCount) }

/-- The flush at the start of `rec_cache_insert`; `size` is the sum of `rec->size`. -/
def makeRoom (size : ρ → Nat) (p : Records ρ) : Records ρ :=
  if p.cache.length = cacheMax then p.cacheFlush 1
  else if 0 < p.cache.length ∧
      p.compressionChunkSize < (p.cache.map fun e => size e.record).sum then p.cacheFlush 1
  else p

def cacheInsert (size : ρ → Nat) (p : Records ρ) (e : RecordCacheEntry ρ) : Records ρ :=
  let p := makeRoom size p
  { p with cache := p.cache ++ [e] }

/-- `rec_cache_lookup`, and the new content of the entry found: a flag is set only where there was
none. -/
def cachePut (sysno : Nat) (record : ρ) (flag : RecordCacheFlag) :
    List (RecordCacheEntry ρ) → Option (List (RecordCacheEntry ρ))
  | [] => none
  | e :: cache =>
    if e.sysno = sysno then
      some ({ e with record, flag := if e.flag = .nop then flag else e.flag } :: cache)
    else (cachePut sysno record flag cache).map (e :: ·)

/-- `rec_get_int` -/
def get (size : ρ → Nat) (p : Records ρ) (sysno : Nat) : Option ρ × Records ρ :=
  match p.cache.find? (·.sysno = sysno) with
  | some e => (some e.record, p)
  | none =>
    match p.disk sysno with
    | none => (none, p)
    | some record => (some record, p.cacheInsert size { sysno, record, flag := .nop })

/-- `rec_new_int`: the number of the new record, unless the assertion of `rec_sysno_to_ext`
fails. -/
def new (size : ρ → Nat) (p : Records ρ) (blank : ρ) : Option (Nat × Records ρ) :=
  if p.indexLast ≤ usualRange then
    some (p.indexLast,
      { p with indexLast := p.indexLast + 1, noRecords := p.noRecords + 1 }.cacheInsert size
        { sysno := p.indexLast, record := blank, flag := .new })
  else none

def put (size : ρ → Nat) (p : Records ρ) (sysno : Nat) (record : ρ) : Records ρ :=
  match cachePut sysno record .write p.cache with
  | some cache => { p with cache }
  | none => p.cacheInsert size { sysno, record, flag := .write }

def del (size : ρ → Nat) (p : Records ρ) (sysno : Nat) (record : ρ) : Records ρ :=
  let p := { p with noRecords := p.noRecords - 1 }
  match cachePut sysno record .delete p.cache with
  | some cache => { p with cache }
  | none => p.cacheInsert size { sysno, record, flag := .delete }

theorem writeMultiple_other {disk : Nat → Option ρ} {entries : List (RecordCacheEntry ρ)}
    {sysno : Nat} (absent : sysno ∉ entries.map (·.sysno)) :
    writeMultiple disk entries sysno = disk sysno := by
  induction entries generalizing disk with
  | nil => rfl
  | cons e entries induction =>
    rw [map_cons, mem_cons, not_or] at absent
    calc writeMultiple disk (e :: entries) sysno
        = writeMultiple (writeEntry disk e) entries sysno := rfl
      _ = writeEntry disk e sysno := induction absent.2
      _ = disk sysno := update_of_ne absent.1 _ _

theorem writeMultiple_mem {disk : Nat → Option ρ} {entries : List (RecordCacheEntry ρ)}
    {e : RecordCacheEntry ρ} (nodup : (entries.map (·.sysno)).Nodup) (mem : e ∈ entries) :
    writeMultiple disk entries e.sysno = e.stored (disk e.sysno) := by
  induction entries generalizing disk with
  | nil => cases mem
  | cons first entries induction =>
    rw [map_cons, nodup_cons] at nodup
    rcases mem_cons.mp mem with rfl | mem
    · calc writeMultiple disk (e :: entries) e.sysno
          = writeMultiple (writeEntry disk e) entries e.sysno := rfl
        _ = writeEntry disk e e.sysno := writeMultiple_other nodup.1
        _ = e.stored (disk e.sysno) := update_self _ _ _
    · have ne : e.sysno ≠ first.sysno := fun same =>
        nodup.1 (same ▸ mem_map_of_mem mem)
      calc writeMultiple disk (first :: entries) e.sysno
          = writeMultiple (writeEntry disk first) entries e.sysno := rfl
        _ = e.stored (writeEntry disk first e.sysno) := induction nodup.2 mem
        _ = e.stored (disk e.sysno) := by rw [writeEntry, update_of_ne ne]

/-- `record` is what the store gives for a number, now and after any flush. -/
def Held (p : Records ρ) (sysno : Nat) (record : ρ) : Prop :=
  (∃ e ∈ p.cache, e.sysno = sysno ∧ e.record = record ∧ e.stored (p.disk sysno) = some record) ∨
    (sysno ∉ p.cache.map (·.sysno) ∧ p.disk sysno = some record)

/-- The store holds the records `live` and will give the next one a number of its own. -/
structure Keeps (p : Records ρ) (live : Nat → Option ρ) : Prop where
  nodup : (p.cache.map (·.sysno)).Nodup
  held : ∀ sysno record, live sysno = some record → p.Held sysno record
  below : ∀ sysno record, live sysno = some record → 0 < sysno ∧ sysno < p.indexLast
  cached_below : ∀ e ∈ p.cache, e.sysno < p.indexLast
  indexLast_pos : 0 < p.indexLast

variable {size : ρ → Nat} {p : Records ρ} {live : Nat → Option ρ} {sysno : Nat} {record : ρ}

theorem held_cacheFlush (nodup : (p.cache.map (·.sysno)).Nodup) (held : p.Held sysno record)
    (saveCount : Nat) : (p.cacheFlush saveCount).Held sysno record := by
  simp only [cacheFlush]
  generalize p.cache.length - (if saveCount ≥ p.cache.length then 0 else saveCount) = count
  have parts : p.cache = p.cache.take count ++ p.cache.drop count := by simp
  have apart :
      ((p.cache.take count).map (·.sysno) ++ (p.cache.drop count).map (·.sysno)).Nodup := by
    rw [← map_append, ← parts]
    exact nodup
  rcases held with ⟨e, mem, rfl, rfl, stored⟩ | ⟨absent, on_disk⟩
  · rw [parts, mem_append] at mem
    rcases mem with mem | mem
    · right
      refine ⟨fun mem' => ?_, ?_⟩
      · exact disjoint_of_nodup_append apart (mem_map_of_mem mem) mem'
      · rw [← stored]
        exact writeMultiple_mem (Nodup.of_append_left apart) mem
    · left
      refine ⟨e, mem, rfl, rfl, ?_⟩
      rw [← stored]
      congr 1
      exact writeMultiple_other fun mem' =>
        disjoint_of_nodup_append apart mem' (mem_map_of_mem mem)
  · right
    have absent' : sysno ∉ (p.cache.take count).map (·.sysno) ∧
        sysno ∉ (p.cache.drop count).map (·.sysno) := by
      rw [← not_or, ← mem_append, ← map_append, ← parts]
      exact absent
    exact ⟨absent'.2, (writeMultiple_other absent'.1).trans on_disk⟩

theorem keeps_cacheFlush (keeps : p.Keeps live) (saveCount : Nat) :
    (p.cacheFlush saveCount).Keeps live where
  nodup := by
    simp only [cacheFlush, map_drop]
    exact keeps.nodup.sublist (drop_sublist _ _)
  held := fun sysno record is_live =>
    held_cacheFlush keeps.nodup (keeps.held sysno record is_live) saveCount
  below := keeps.below
  cached_below := fun e mem => keeps.cached_below e (mem_of_mem_drop mem)
  indexLast_pos := keeps.indexLast_pos

theorem keeps_makeRoom (size : ρ → Nat) (keeps : p.Keeps live) : (makeRoom size p).Keeps live := by
  unfold makeRoom
  split
  · exact keeps_cacheFlush keeps 1
  · split
    · exact keeps_cacheFlush keeps 1
    · exact keeps

/-- Making room changes neither the numbers given nor what the files hold for numbers that are not
in the cache, and puts nothing into the cache. -/
theorem makeRoom_frame (size : ρ → Nat) (p : Records ρ) :
    (makeRoom size p).indexLast = p.indexLast ∧
      (∀ e ∈ (makeRoom size p).cache, e ∈ p.cache) ∧
      ∀ sysno ∉ p.cache.map (·.sysno), (makeRoom size p).disk sysno = p.disk sysno := by
  have flush (saveCount : Nat) : (p.cacheFlush saveCount).indexLast = p.indexLast ∧
      (∀ e ∈ (p.cacheFlush saveCount).cache, e ∈ p.cache) ∧
      ∀ sysno ∉ p.cache.map (·.sysno), (p.cacheFlush saveCount).disk sysno = p.disk sysno := by
    refine ⟨rfl, fun e mem => mem_of_mem_drop mem, fun sysno absent => ?_⟩
    refine writeMultiple_other fun mem => absent ?_
    obtain ⟨e, taken, rfl⟩ := mem_map.mp mem
    exact mem_map_of_mem (mem_of_mem_take taken)
  unfold makeRoom
  split
  · exact flush 1
  · split
    · exact flush 1
    · exact ⟨rfl, fun _ mem => mem, fun _ _ => rfl⟩

/-- A new entry for a number that is not in the cache: the entry settles what its own number has. -/
theorem keeps_cacheInsert {e : RecordCacheEntry ρ} {live' : Nat → Option ρ} (keeps : p.Keeps live)
    (absent : e.sysno ∉ p.cache.map (·.sysno)) (taken : e.sysno < p.indexLast)
    (others : ∀ sysno ≠ e.sysno, live' sysno = live sysno)
    (own : ∀ record, live' e.sysno = some record →
      0 < e.sysno ∧ e.record = record ∧ e.stored (p.disk e.sysno) = some record) :
    (p.cacheInsert size e).Keeps live' := by
  obtain ⟨same_last, cached, same_disk⟩ := makeRoom_frame size p
  have room := keeps_makeRoom size keeps
  have absent' : e.sysno ∉ (makeRoom size p).cache.map (·.sysno) := by
    intro mem
    obtain ⟨e', mem, same⟩ := mem_map.mp mem
    exact absent (same ▸ mem_map_of_mem (cached e' mem))
  refine ⟨?_, fun sysno record is_live => ?_, fun sysno record is_live => ?_, fun e' mem => ?_, ?_⟩
  · simp only [cacheInsert, map_append, map_singleton]
    exact room.nodup.append (nodup_singleton _) (by simpa using absent')
  · by_cases same : sysno = e.sysno
    · subst same
      obtain ⟨-, rfl, stored⟩ := own record is_live
      left
      refine ⟨e, by simp [cacheInsert], rfl, rfl, ?_⟩
      rw [← stored]
      exact congrArg e.stored (same_disk _ absent)
    · rcases room.held sysno record (others sysno same ▸ is_live) with
        ⟨e', mem, rfl, rfl, stored⟩ | ⟨not_cached, on_disk⟩
      · exact .inl ⟨e', mem_append_left _ mem, rfl, rfl, stored⟩
      · right
        refine ⟨?_, on_disk⟩
        simp only [cacheInsert, map_append, mem_append, map_singleton,
          mem_singleton]
        rintro (mem | mem)
        · exact not_cached mem
        · exact same mem
  · simp only [cacheInsert, same_last]
    by_cases same : sysno = e.sysno
    · subst same
      exact ⟨(own record is_live).1, taken⟩
    · exact keeps.below sysno record (others sysno same ▸ is_live)
  · simp only [cacheInsert, same_last]
    rcases mem_append.mp mem with mem | mem
    · exact same_last ▸ room.cached_below e' mem
    · rw [mem_singleton] at mem
      exact mem ▸ taken
  · simp only [cacheInsert, same_last]
    exact keeps.indexLast_pos

/-- `rec_get` of a record that is kept. -/
theorem get_spec (keeps : p.Keeps live) (is_live : live sysno = some record) :
    ∃ p', p.get size sysno = (some record, p') ∧ p'.Keeps live ∧ p'.indexLast = p.indexLast := by
  have find_eq : ∀ e ∈ p.cache, e.sysno = sysno → p.cache.find? (·.sysno = sysno) = some e := by
    intro e mem same
    cases found : p.cache.find? (·.sysno = sysno) with
    | none => exact absurd same (by simpa using find?_eq_none.mp found e mem)
    | some e' =>
      have same' : e'.sysno = sysno := by simpa using find?_some found
      rw [inj_on_of_nodup_map keeps.nodup (mem_of_find?_eq_some found) mem
        (same'.trans same.symm)]
  rcases keeps.held sysno record is_live with ⟨e, mem, same, rfl, stored⟩ | ⟨absent, on_disk⟩
  · refine ⟨p, ?_, keeps, rfl⟩
    rw [get, find_eq e mem same]
  · have missing : p.cache.find? (·.sysno = sysno) = none := by
      refine find?_eq_none.mpr fun e mem same => absent ?_
      have same : e.sysno = sysno := by simpa using same
      exact same ▸ mem_map_of_mem mem
    refine ⟨p.cacheInsert size { sysno, record, flag := .nop }, ?_, ?_, ?_⟩
    · simp only [get, missing, on_disk]
    · refine keeps_cacheInsert keeps absent (keeps.below sysno record is_live).2
        (fun _ _ => rfl) fun record' is_live' => ?_
      obtain rfl : record = record' := Option.some.inj (is_live.symm.trans is_live')
      exact ⟨(keeps.below sysno record is_live).1, rfl, on_disk⟩
    · exact (makeRoom_frame size p).1

/-- `rec_new`: a number that no record had. -/
theorem new_spec {blank : ρ} (keeps : p.Keeps live) (in_range : p.indexLast ≤ usualRange) :
    live p.indexLast = none ∧
      ∃ p', p.new size blank = some (p.indexLast, p') ∧
        p'.Keeps (update live p.indexLast (some blank)) ∧
          p'.indexLast = p.indexLast + 1 := by
  have unused : live p.indexLast = none := by
    cases is_live : live p.indexLast with
    | none => rfl
    | some record => exact absurd (keeps.below _ record is_live).2 (Nat.lt_irrefl _)
  have keeps₁ : ({ p with
      indexLast := p.indexLast + 1, noRecords := p.noRecords + 1 } : Records ρ).Keeps live :=
    { keeps with
      below := fun sysno record is_live =>
        ⟨(keeps.below sysno record is_live).1,
          Nat.lt_succ_of_lt (keeps.below sysno record is_live).2⟩
      cached_below := fun e mem => Nat.lt_succ_of_lt (keeps.cached_below e mem)
      indexLast_pos := Nat.succ_pos _ }
  refine ⟨unused, _, by rw [new, if_pos in_range], ?_, (makeRoom_frame size _).1⟩
  refine keeps_cacheInsert keeps₁ ?_ (Nat.lt_succ_self _)
    (fun sysno ne => update_of_ne ne _ _) fun record is_live => ?_
  · intro mem
    obtain ⟨e, mem, same⟩ := mem_map.mp mem
    have below : e.sysno < p.indexLast := keeps.cached_below e mem
    exact absurd same (Nat.ne_of_lt below)
  · rw [update_self] at is_live
    exact ⟨keeps.indexLast_pos, Option.some.inj is_live, is_live⟩

variable {flag : RecordCacheFlag} {cache : List (RecordCacheEntry ρ)}

/-- What `cachePut` does to the cache. -/
theorem cachePut_spec {cache' : List (RecordCacheEntry ρ)}
    (put : cachePut sysno record flag cache = some cache') :
    ∃ left e right, cache = left ++ e :: right ∧ e.sysno = sysno ∧
      cache' = left ++
        { e with record, flag := if e.flag = .nop then flag else e.flag } :: right := by
  induction cache generalizing cache' with
  | nil => cases put
  | cons e cache induction =>
    rw [cachePut] at put
    split at put
    · exact ⟨[], e, cache, rfl, ‹_›, (Option.some.inj put).symm⟩
    · obtain ⟨cache₁, put₁, rfl⟩ := Option.map_eq_some_iff.mp put
      obtain ⟨left, e', right, rfl, same, rfl⟩ := induction put₁
      exact ⟨e :: left, e', right, rfl, same, rfl⟩

theorem cachePut_eq_none
    (put : cachePut sysno record flag cache = none) : sysno ∉ cache.map (·.sysno) := by
  induction cache with
  | nil => simp
  | cons e cache induction =>
    rw [cachePut] at put
    split at put
    · cases put
    · rw [map_cons, mem_cons, not_or]
      exact ⟨Ne.symm ‹_›, induction (Option.map_eq_none_iff.mp put)⟩

/-- A record in the cache gets a new content: the records of other numbers stay. -/
theorem keeps_cachePut {live' : Nat → Option ρ} (keeps : p.Keeps live)
    (put : cachePut sysno record flag p.cache = some cache)
    (others : ∀ other ≠ sysno, live' other = live other)
    (own : ∀ record', live' sysno = some record' →
      record = record' ∧ flag = .write ∧ ∃ old, live sysno = some old) :
    ({ p with cache } : Records ρ).Keeps live' := by
  obtain ⟨left, e, right, parts, same, rfl⟩ := cachePut_spec put
  have nodup := keeps.nodup
  rw [parts] at nodup
  simp only [map_append, map_cons] at nodup
  have apart := nodup_middle.mp nodup
  rw [nodup_cons, mem_append, not_or] at apart
  refine ⟨by simpa using nodup, fun other record' is_live => ?_, fun other record' is_live => ?_,
    fun e' mem => ?_, keeps.indexLast_pos⟩
  · by_cases ne : other = sysno
    · subst ne
      obtain ⟨rfl, rfl, old, was_live⟩ := own record' is_live
      left
      refine ⟨_, mem_append_right _ mem_cons_self, same, rfl, ?_⟩
      rcases keeps.held other old was_live with ⟨e', mem, same', -, stored⟩ | ⟨absent, -⟩
      · obtain rfl : e' = e :=
          inj_on_of_nodup_map keeps.nodup mem (parts ▸ by simp) (same'.trans same.symm)
        cases flag_eq : e'.flag <;> simp [RecordCacheEntry.stored, flag_eq] at stored ⊢
      · exact absurd (same ▸ mem_map_of_mem (parts ▸ by simp)) absent
    · rcases keeps.held other record' (others other ne ▸ is_live) with
        ⟨e', mem, rfl, rfl, stored⟩ | ⟨absent, on_disk⟩
      · left
        rw [parts, mem_append, mem_cons] at mem
        have mem : e' ∈ left ∨ e' ∈ right := by
          rcases mem with mem | rfl | mem
          · exact .inl mem
          · exact absurd same ne
          · exact .inr mem
        refine ⟨e', ?_, rfl, rfl, stored⟩
        rcases mem with mem | mem
        · exact mem_append_left _ mem
        · exact mem_append_right _ (.tail _ mem)
      · right
        refine ⟨?_, on_disk⟩
        rw [parts] at absent
        simpa using absent
  · by_cases ne : other = sysno
    · subst ne
      obtain ⟨-, -, old, was_live⟩ := own record' is_live
      exact keeps.below other old was_live
    · exact keeps.below other record' (others other ne ▸ is_live)
  · have below : ∀ e' ∈ left ++ e :: right, e'.sysno < p.indexLast := parts ▸ keeps.cached_below
    rcases mem_append.mp mem with mem | mem
    · exact below e' (mem_append_left _ mem)
    · rcases mem_cons.mp mem with rfl | mem
      · exact below e (by simp)
      · exact below e' (mem_append_right _ (.tail _ mem))

/-- `rec_put` of a record that is kept. -/
theorem put_spec (keeps : p.Keeps live) {old : ρ} (is_live : live sysno = some old) :
    (p.put size sysno record).Keeps (update live sysno (some record)) ∧
      (p.put size sysno record).indexLast = p.indexLast := by
  have others : ∀ other ≠ sysno, update live sysno (some record) other = live other :=
    fun other ne => update_of_ne ne _ _
  cases put_eq : cachePut sysno record .write p.cache with
  | none =>
    simp only [put, put_eq]
    refine ⟨?_, (makeRoom_frame size p).1⟩
    refine keeps_cacheInsert keeps (cachePut_eq_none put_eq) (keeps.below _ _ is_live).2 others
      fun record' is_live' => ?_
    rw [update_self] at is_live'
    exact ⟨(keeps.below _ _ is_live).1, Option.some.inj is_live', is_live'⟩
  | some cache =>
    simp only [put, put_eq]
    refine ⟨keeps_cachePut keeps put_eq others fun record' is_live' => ?_, trivial⟩
    rw [update_self] at is_live'
    exact ⟨Option.some.inj is_live', rfl, old, is_live⟩

/-- `rec_del` of a record that is kept: the others stay. -/
theorem del_spec (keeps : p.Keeps live) {old : ρ} (is_live : live sysno = some old) :
    (p.del size sysno record).Keeps (update live sysno none) ∧
      (p.del size sysno record).indexLast = p.indexLast := by
  have others : ∀ other ≠ sysno, update live sysno none other = live other :=
    fun other ne => update_of_ne ne _ _
  have keeps₁ : ({ p with noRecords := p.noRecords - 1 } : Records ρ).Keeps live :=
    ⟨keeps.nodup, keeps.held, keeps.below, keeps.cached_below, keeps.indexLast_pos⟩
  cases put_eq : cachePut sysno record .delete p.cache with
  | none =>
    simp only [del, put_eq]
    refine ⟨?_, (makeRoom_frame size _).1⟩
    refine keeps_cacheInsert keeps₁ (cachePut_eq_none put_eq) (keeps.below _ _ is_live).2 others
      fun record' is_live' => ?_
    rw [update_self] at is_live'
    cases is_live'
  | some cache =>
    simp only [del, put_eq]
    refine ⟨keeps_cachePut keeps₁ put_eq others fun record' is_live' => ?_, trivial⟩
    rw [update_self] at is_live'
    cases is_live'

end Records

end Zebra.Update
