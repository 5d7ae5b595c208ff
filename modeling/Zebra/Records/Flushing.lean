import Zebra.Records.Accounting

/-!
# Flushing a group of records

The chains of the records that are rewritten or deleted are released one after another; then the
group is written to a chain of its own, to which all its entries refer.
-/

namespace Zebra.Records

open List Function

variable {st : Store} {chains : Nat → List (List Nat)} {free : Nat → List Nat}
  {pending : List Nat}

/-- A record is deleted: its chain has one reference less, and it is not in the index. -/
theorem Accounts.deleteSingle (accounts : Accounts st chains free pending) {s : Nat}
    (live : Live st s) (new : s ∉ pending) :
    ∃ after chains' free', deleteSingle st s = some after ∧
      Accounts after chains' free' pending ∧
      after.index = update st.index s (some { next := st.indexFree, size := 0 }) ∧
      after.indexLast = st.indexLast ∧ after.cache = st.cache := by
  have below : s < st.indexLast := by
    by_contra above
    obtain ⟨entry, found, _⟩ := live
    rw [accounts.known s (by omega)] at found
    cases found
  obtain ⟨middle, chains', free', run, released, index, last, cache, indexFree, _⟩ :=
    accounts.release live new
  refine ⟨{ middle with
    indexFree := s
    index := update middle.index s (some { next := middle.indexFree, size := 0 }) },
    chains', free', by rw [Records.deleteSingle, run]; rfl, ?_, ?_, last, cache⟩
  · have same : ∀ t first, refers { middle with
        indexFree := s
        index := update middle.index s
          (some { next := middle.indexFree, size := 0 }) } pending t first =
          refers middle (s :: pending) t first := by
      intro t first
      refine refers_congr ?_ fun r => ?_
      · rfl
      rw [Bool.eq_iff_iff, refersTo_iff, refersTo_iff]
      dsimp only
      by_cases here : r = s
      · rw [here, update_self]
        constructor
        · rintro ⟨e, eq, _, nonzero, _⟩
          cases eq
          exact absurd rfl nonzero
        · rintro ⟨_, _, notIn, _⟩
          exact absurd (mem_cons_self ..) notIn
      · rw [update_of_ne here, mem_cons]
        simp only [here, false_or]
    constructor
    case blocks => exact released.blocks
    case refs =>
      intro t low c mem first head
      rw [same]
      exact released.refs t low c mem first head
    case shared =>
      intro t low c mem first head
      rw [same]
      exact released.shared t low c mem first head
    case entries =>
      intro r e eq nonzero notIn
      dsimp only at eq
      by_cases here : r = s
      · rw [here, update_self] at eq
        cases eq
        exact absurd rfl nonzero
      · rw [update_of_ne here] at eq
        apply released.entries r e eq nonzero
        intro inside
        rcases mem_cons.mp inside with eq | inside
        · exact here eq
        · exact notIn inside
    case known =>
      intro r above
      have here : r ≠ s := by
        rintro rfl
        rw [← last] at below
        exact absurd above (Nat.not_le.mpr below)
      have old := released.known r above
      rw [← old]
      exact update_of_ne here _ _
  · dsimp only
    rw [index, indexFree]

/-- Where a chunk is after it has been written: the chain of its class and what it holds. -/
structure Stored (st : Store) (entry : IndexEntry) (tmpBuf : List Byte) : Prop where
  size : entry.size = tmpBuf.length
  chain : ∃ t first chain junk, t < 2 ∧ entry.next = first * 8 + t ∧ first ≠ 0 ∧
    Follows (st.classes t).nextOf first chain ∧ chain.length ≤ (st.classes t).blockLast ∧
    (∀ b ∈ chain, ((st.classes t).file b).isSome) ∧
    (st.classes t).dataOf chain = tmpBuf ++ junk

/-- A chunk is written to a chain; the records of the group refer to it. -/
theorem Accounts.writeTmpBuf (accounts : Accounts st chains free pending) {sysnos : List Nat}
    {rest : List Byte} (nodup : sysnos.Nodup) (some : sysnos ≠ [])
    (few : sysnos.length ≤ cacheMax) (known : ∀ s ∈ sysnos, s < st.indexLast)
    (waiting : ∀ s ∈ pending, s ∈ sysnos) (unread : ∀ s ∈ sysnos, s ∈ pending ∨ st.index s = none) :
    ∃ after chains' free' entry,
      writeTmpBuf st (withRef sysnos.length rest) sysnos = Option.some after ∧
      Accounts after chains' free' [] ∧
      (∀ s, after.index s = if s ∈ sysnos then Option.some entry else st.index s) ∧
      entry.size ≠ 0 ∧ after.indexLast = st.indexLast ∧ after.cache = st.cache ∧
      Stored after entry (withRef sysnos.length rest) := by
  have small : sysnos.length < 65536 := by
    simp only [cacheMax] at few
    omega
  generalize tmpEq : withRef sysnos.length rest = tmpBuf
  have length : 2 ≤ tmpBuf.length := by
    rw [← tmpEq, withRef, length_cons, length_cons]
    omega
  generalize typeEq : (if (st.classes 1).blockMove ≤ tmpBuf.length then 1 else 0) = t
  have low : t < 2 := by
    rw [← typeEq]
    split <;> omega
  have blocks := accounts.blocks t low
  obtain ⟨cls, first, free₁, alloc, blocks₁, file, capacity, _, named, grows, apart⟩ :=
    blocks.allocBlock
  obtain ⟨written, more, free₂, junk, run, blocks₂, follows, there, data, frame, front, capacity',
    _⟩ := blocks₁.writeLoop (Nat.le_refl tmpBuf.length) (by omega)
  rw [append_nil] at blocks₂
  have blocks₃ := blocks₂.give rfl follows there
  -- the new chain has no block of another one
  have notOld : ∀ c ∈ chains t, first ∉ c := by
    intro c mem inside
    have here : first ∈ first :: more := mem_cons_self ..
    exact (blocks₂.apart here).2 (mem_flatten.mpr ⟨c, mem, inside⟩)
  have kept : ∀ c ∈ chains t, ∀ b ∈ c, written.file b = (st.classes t).file b := by
    intro c mem b inside
    have flat : b ∈ (chains t).flatten := mem_flatten.mpr ⟨c, mem, inside⟩
    have notFree : b ∉ free t := by
      intro also
      have nodup := blocks.nodup
      rw [nodup_append] at nodup
      exact nodup.2.2 b also b (mem_append_right _ flat) rfl
    have below := (blocks.range (mem_append_right _ (mem_append_right _ flat))).2
    obtain ⟨other, notFree₁⟩ := apart b notFree below
    rw [frame b other notFree₁ (Nat.lt_of_lt_of_le below grows), file]
  let entry : IndexEntry := { next := first * 8 + t, size := tmpBuf.length }
  let after : Store := { st.setClass t written with
    totalBytes := st.totalBytes + tmpBuf.length
    index := fun s => if s ∈ sysnos then Option.some entry else st.index s }
  have index : ∀ s, after.index s = if s ∈ sysnos then Option.some entry else st.index s :=
    fun _ => rfl
  have here : after.classes t = written := update_self _ _ _
  have classes : ∀ t', t' ≠ t → after.classes t' = st.classes t' :=
    fun t' other => update_of_ne other _ _
  have nonzero : entry.size ≠ 0 := by
    have size : entry.size = tmpBuf.length := rfl
    omega
  -- no entry but those of the group refers to the new chain
  have mine : refers after [] t first = sysnos.length := by
    apply countP_mem nodup known
    intro s
    rw [refersTo_iff, index]
    constructor
    · rintro ⟨e, eq, _, live, next⟩
      by_contra outside
      rw [if_neg outside] at eq
      have notIn : s ∉ pending := fun inside => outside (waiting s inside)
      obtain ⟨_, c, mem, head⟩ := accounts.entries s e eq live notIn
      have type : e.next % 8 = t := by omega
      have number : e.next / 8 = first := by omega
      rw [type] at mem
      rw [number] at head
      exact notOld c mem (mem_of_mem_head? head)
    · intro inside
      rw [if_pos inside]
      exact ⟨entry, rfl, not_mem_nil, nonzero, rfl⟩
  have old : ∀ t', t' < 2 → ∀ c ∈ chains t', ∀ first', c.head? = Option.some first' →
      refers after [] t' first' = refers st pending t' first' := by
    intro t' low' c mem first' head
    refine refers_congr ?_ fun s => ?_
    · rfl
    rw [Bool.eq_iff_iff, refersTo_iff, refersTo_iff, index]
    by_cases inside : s ∈ sysnos
    · rw [if_pos inside]
      constructor
      · rintro ⟨e, eq, _, _, next⟩
        cases eq
        have next' : first * 8 + t = first' * 8 + t' := next
        have type : t' = t := by omega
        have number : first' = first := by omega
        rw [type] at mem
        rw [number] at head
        exact absurd (mem_of_mem_head? head) (notOld c mem)
      · rintro ⟨e, eq, notIn, _⟩
        rcases unread s inside with waits | none
        · exact absurd waits notIn
        · rw [none] at eq
          cases eq
    · rw [if_neg inside]
      have notIn : s ∉ pending := fun waits => inside (waiting s waits)
      simp only [notIn, not_false_eq_true, not_mem_nil]
  have runs : Records.writeTmpBuf st tmpBuf sysnos = Option.some after := by
    unfold Records.writeTmpBuf
    rw [typeEq]
    dsimp only
    rw [alloc]
    dsimp only
    rw [run]
    rfl
  refine ⟨after, update chains t ((first :: more) :: chains t),
    update free t free₂, entry, runs, ?_, index, nonzero, rfl, rfl, rfl, ?_⟩
  · constructor
    case blocks =>
      intro t' low'
      by_cases eq : t' = t
      · rw [eq, update_self, update_self, here]
        exact blocks₃
      · rw [update_of_ne eq, update_of_ne eq, classes t' eq]
        exact accounts.blocks t' low'
    case refs =>
      intro t' low' c mem first' head
      by_cases eq : t' = t
      · rw [eq, update_self] at mem
        rw [eq, here]
        rcases mem_cons.mp mem with rfl | mem
        · cases head
          obtain ⟨b, read, starts⟩ := front
          rw [← tmpEq] at starts
          have enough : 2 ≤ cls.capacity := by
            have := blocks₁.capacity
            omega
          obtain ⟨two, count⟩ := refOf_prefix small enough starts
          exact ⟨b, read, two, count.trans mine.symm⟩
        · obtain ⟨b, read, two, count⟩ := accounts.refs t low c mem first' head
          rw [old t low c mem first' head, kept c mem first' (mem_of_mem_head? head)]
          exact ⟨b, read, two, count⟩
      · rw [update_of_ne eq] at mem
        rw [classes t' eq, old t' low' c mem first' head]
        exact accounts.refs t' low' c mem first' head
    case shared =>
      intro t' low' c mem first' head
      by_cases eq : t' = t
      · rw [eq, update_self] at mem
        rw [eq]
        rcases mem_cons.mp mem with rfl | mem
        · cases head
          rw [mine]
          exact ⟨length_pos_of_ne_nil some, few⟩
        · rw [old t low c mem first' head]
          exact accounts.shared t low c mem first' head
      · rw [update_of_ne eq] at mem
        rw [old t' low' c mem first' head]
        exact accounts.shared t' low' c mem first' head
    case entries =>
      intro s e eq live _
      rw [index] at eq
      by_cases inside : s ∈ sysnos
      · rw [if_pos inside] at eq
        cases eq
        have type : entry.next % 8 = t := by
          have next : entry.next = first * 8 + t := rfl
          omega
        have number : entry.next / 8 = first := by
          have next : entry.next = first * 8 + t := rfl
          omega
        rw [type, number, update_self]
        exact ⟨low, first :: more, mem_cons_self .., rfl⟩
      · rw [if_neg inside] at eq
        obtain ⟨low', c, mem, head⟩ := accounts.entries s e eq live
          fun waits => inside (waiting s waits)
        refine ⟨low', c, ?_, head⟩
        by_cases type : e.next % 8 = t
        · rw [type] at mem ⊢
          rw [update_self]
          exact .tail _ mem
        · rw [update_of_ne type]
          exact mem
    case known =>
      intro s above
      have outside : s ∉ sysnos := fun inside => absurd above (Nat.not_le.mpr (known s inside))
      rw [index, if_neg outside]
      exact accounts.known s above
  · refine ⟨t, first, first :: more, junk, low, rfl, ?_, ?_, ?_, ?_, ?_⟩
    · exact named
    · rw [here]
      exact follows
    · rw [here]
      exact blocks₃.length_chain (mem_cons_self ..)
    · rw [here]
      exact there
    · rw [here]
      exact data

def CacheEntry.kept (e : CacheEntry) : Bool :=
  e.flag = .new ∨ e.flag = .write

/-- What the cache says about the records in it. -/
structure Entries (st : Store) (entries : List CacheEntry) : Prop where
  nodup : (entries.map fun e => e.record.sysno).Nodup
  known : ∀ e ∈ entries, e.record.sysno < st.indexLast
  new : ∀ e ∈ entries, e.flag = .new → st.index e.record.sysno = none
  live : ∀ e ∈ entries, e.flag ≠ .new → Live st e.record.sysno

theorem Entries.tail {e : CacheEntry} {entries : List CacheEntry}
    (holds : Entries st (e :: entries)) {after : Store} (last : after.indexLast = st.indexLast)
    (index : ∀ s, s ≠ e.record.sysno → after.index s = st.index s) : Entries after entries := by
  have apart : ∀ d ∈ entries, d.record.sysno ≠ e.record.sysno := by
    intro d mem eq
    have nodup := holds.nodup
    rw [map_cons, nodup_cons] at nodup
    exact nodup.1 (mem_map.mpr ⟨d, mem, eq⟩)
  constructor
  case nodup => exact (nodup_cons.mp holds.nodup).2
  case known =>
    intro d mem
    rw [last]
    exact holds.known d (.tail _ mem)
  case new =>
    intro d mem flag
    rw [index _ (apart d mem)]
    exact holds.new d (.tail _ mem) flag
  case live =>
    intro d mem flag
    obtain ⟨entry, found, size⟩ := holds.live d (.tail _ mem) flag
    exact ⟨entry, by rw [index _ (apart d mem)]; exact found, size⟩

/-- The chunk that a loop of `rec_write_multiple` gathers. -/
def Chunk.gather (chunk : Chunk) (entries : List CacheEntry) : Chunk :=
  ((entries.filter CacheEntry.kept).map CacheEntry.record).foldl Chunk.add chunk

/-- What waits to be written while a group is gathered. -/
structure Gathered (st : Store) (chunk : Chunk) (pending : List Nat) : Prop where
  nodup : chunk.sysnos.Nodup
  known : ∀ s ∈ chunk.sysnos, s < st.indexLast
  waiting : ∀ s ∈ pending, s ∈ chunk.sysnos
  unread : ∀ s ∈ chunk.sysnos, s ∈ pending ∨ st.index s = none

theorem sysnos_gather (chunk : Chunk) (entries : List CacheEntry) :
    (chunk.gather entries).sysnos = chunk.sysnos ++
      (entries.filter CacheEntry.kept).map fun e => e.record.sysno := by
  unfold Chunk.gather
  generalize entries.filter CacheEntry.kept = kept
  induction kept generalizing chunk with
  | nil => exact (append_nil _).symm
  | cons e kept induction =>
    rw [map_cons, foldl_cons, induction, map_cons]
    rw [Chunk.add]
    dsimp only
    rw [append_assoc]
    rfl

theorem Chunk.gather_kept (chunk : Chunk) {e : CacheEntry} (entries : List CacheEntry)
    (kept : e.kept = true) : chunk.gather (e :: entries) = (chunk.add e.record).gather entries := by
  rw [Chunk.gather, filter_cons, kept]
  rfl

theorem Chunk.gather_dropped (chunk : Chunk) {e : CacheEntry} (entries : List CacheEntry)
    (dropped : e.kept = false) : chunk.gather (e :: entries) = chunk.gather entries := by
  rw [Chunk.gather, filter_cons, dropped]
  rfl

/-- The loop of `rec_write_multiple`. -/
theorem Accounts.writeEntries {entries : List CacheEntry} {chunk : Chunk}
    (accounts : Accounts st chains free pending) (holds : Entries st entries)
    (gathered : Gathered st chunk pending) (apart : ∀ e ∈ entries, e.record.sysno ∉ chunk.sysnos) :
    ∃ after chains' free' pending',
      writeEntries entries st chunk = some (after, chunk.gather entries) ∧
      Accounts after chains' free' pending' ∧ Gathered after (chunk.gather entries) pending' ∧
      after.indexLast = st.indexLast ∧ after.cache = st.cache ∧
      (∀ e ∈ entries, e.flag = .delete → ¬ Live after e.record.sysno) ∧
      ∀ s, (∀ e ∈ entries, e.flag = .delete → e.record.sysno ≠ s) →
        after.index s = st.index s := by
  induction entries generalizing st chains free pending chunk with
  | nil =>
    exact ⟨st, chains, free, pending, rfl, accounts, gathered, rfl, rfl,
      fun _ mem => absurd mem not_mem_nil, fun _ _ => rfl⟩
  | cons e entries induction =>
    have here : e ∈ e :: entries := mem_cons_self ..
    have fresh := apart e here
    have others : ∀ d ∈ entries, d.record.sysno ≠ e.record.sysno := by
      intro d mem eq
      have nodup := holds.nodup
      rw [map_cons, nodup_cons] at nodup
      exact nodup.1 (mem_map.mpr ⟨d, mem, eq⟩)
    have notPending : e.record.sysno ∉ pending := fun inside => fresh (gathered.waiting _ inside)
    have apartAdd : ∀ d ∈ entries, d.record.sysno ∉ (chunk.add e.record).sysnos := by
      intro d mem inside
      rcases mem_append.mp inside with inside | inside
      · exact apart d (.tail _ mem) inside
      · exact others d mem (mem_singleton.mp inside)
    have nodupAdd : (chunk.add e.record).sysnos.Nodup := by
      apply nodup_append.mpr
      refine ⟨gathered.nodup, nodup_singleton _, fun a mem b last => ?_⟩
      rw [mem_singleton.mp last]
      rintro rfl
      exact fresh mem
    have knownAdd : ∀ s ∈ (chunk.add e.record).sysnos, s < st.indexLast := by
      intro s inside
      rcases mem_append.mp inside with inside | inside
      · exact gathered.known s inside
      · rw [mem_singleton.mp inside]
        exact holds.known e here
    have goneAlso {after : Store} (other : e.flag ≠ .delete)
        (gone : ∀ d ∈ entries, d.flag = .delete → ¬ Live after d.record.sysno) :
        ∀ d ∈ e :: entries, d.flag = .delete → ¬ Live after d.record.sysno := by
      intro d mem deleted
      rcases mem_cons.mp mem with rfl | mem
      · exact absurd deleted other
      · exact gone d mem deleted
    cases flag : e.flag with
    | nop =>
      have gather := chunk.gather_dropped entries (by rw [CacheEntry.kept, flag]; rfl)
      obtain ⟨after, chains', free', pending', run, accounts', gathered', last, cache, gone,
        frame⟩ := induction accounts (holds.tail rfl fun _ _ => rfl) gathered
          fun d mem => apart d (.tail _ mem)
      refine ⟨after, chains', free', pending', ?_, accounts', ?_, last, cache, ?_, ?_⟩
      · rw [Records.writeEntries, flag, gather]
        exact run
      · rw [gather]
        exact gathered'
      · exact goneAlso (fun deleted => by rw [flag] at deleted; cases deleted) gone
      · exact fun s free => frame s fun d mem => free d (.tail _ mem)
    | new =>
      have gather := chunk.gather_kept entries (by rw [CacheEntry.kept, flag]; rfl)
      have gatheredAdd : Gathered st (chunk.add e.record) pending := by
        refine ⟨nodupAdd, knownAdd, fun s inside => ?_, fun s inside => ?_⟩
        · exact mem_append_left _ (gathered.waiting s inside)
        · rcases mem_append.mp inside with inside | inside
          · exact gathered.unread s inside
          · rw [mem_singleton.mp inside]
            exact Or.inr (holds.new e here flag)
      obtain ⟨after, chains', free', pending', run, accounts', gathered', last, cache, gone,
        frame⟩ := induction accounts (holds.tail rfl fun _ _ => rfl) gatheredAdd apartAdd
      refine ⟨after, chains', free', pending', ?_, accounts', ?_, last, cache, ?_, ?_⟩
      · rw [Records.writeEntries, flag, gather]
        exact run
      · rw [gather]
        exact gathered'
      · exact goneAlso (fun deleted => by rw [flag] at deleted; cases deleted) gone
      · exact fun s free => frame s fun d mem => free d (.tail _ mem)
    | write =>
      have gather := chunk.gather_kept entries (by rw [CacheEntry.kept, flag]; rfl)
      have live := holds.live e here (by rw [flag]; decide)
      obtain ⟨middle, chains₁, free₁, released, accounts₁, index, last₁, cache₁, _, _⟩ :=
        accounts.release live notPending
      have gatheredAdd : Gathered middle (chunk.add e.record) (e.record.sysno :: pending) := by
        refine ⟨nodupAdd, ?_, fun s inside => ?_, fun s inside => ?_⟩
        · rw [last₁]
          exact knownAdd
        · rcases mem_cons.mp inside with rfl | inside
          · exact mem_append_right _ (mem_singleton_self _)
          · exact mem_append_left _ (gathered.waiting s inside)
        · rw [index]
          rcases mem_append.mp inside with inside | inside
          · exact (gathered.unread s inside).imp (.tail _) id
          · rw [mem_singleton.mp inside]
            exact Or.inl (mem_cons_self ..)
      obtain ⟨after, chains', free', pending', run, accounts', gathered', last, cache, gone,
        frame⟩ := induction accounts₁ (holds.tail last₁ fun s _ => by rw [index]) gatheredAdd
          apartAdd
      refine ⟨after, chains', free', pending', ?_, accounts', ?_, last.trans last₁,
        cache.trans cache₁, ?_, ?_⟩
      · rw [Records.writeEntries, flag, gather]
        dsimp only
        rw [released]
        exact run
      · rw [gather]
        exact gathered'
      · exact goneAlso (fun deleted => by rw [flag] at deleted; cases deleted) gone
      · intro s free
        rw [frame s fun d mem => free d (mem_cons_of_mem _ mem), index]
    | delete =>
      have gather := chunk.gather_dropped entries (by rw [CacheEntry.kept, flag]; rfl)
      have live := holds.live e here (by rw [flag]; decide)
      obtain ⟨middle, chains₁, free₁, deleted, accounts₁, index, last₁, cache₁⟩ :=
        accounts.deleteSingle live notPending
      have same : ∀ s, s ≠ e.record.sysno → middle.index s = st.index s := by
        intro s other
        rw [index, update_of_ne other]
      have gathered₁ : Gathered middle chunk pending := by
        refine ⟨gathered.nodup, ?_, gathered.waiting, fun s inside => ?_⟩
        · rw [last₁]
          exact gathered.known
        · have other : s ≠ e.record.sysno := by
            rintro rfl
            exact fresh inside
          rw [same s other]
          exact gathered.unread s inside
      obtain ⟨after, chains', free', pending', run, accounts', gathered', last, cache, gone,
        frame⟩ := induction accounts₁ (holds.tail last₁ same) gathered₁
          fun d mem => apart d (.tail _ mem)
      refine ⟨after, chains', free', pending', ?_, accounts', ?_, last.trans last₁,
        cache.trans cache₁, ?_, ?_⟩
      · rw [Records.writeEntries, flag, gather]
        dsimp only
        rw [deleted]
        exact run
      · rw [gather]
        exact gathered'
      · intro d mem flagged
        rcases mem_cons.mp mem with rfl | mem
        · rintro ⟨entry, found, size⟩
          rw [frame _ fun c inside _ => others c inside, index, update_self] at found
          cases found
          exact size rfl
        · exact gone d mem flagged
      · intro s free
        rw [frame s fun d mem => free d (mem_cons_of_mem _ mem)]
        exact same s (free e here flag).symm

theorem Accounts.writeMultiple (comp : Compression) (accounts : Accounts st chains free [])
    {entries : List CacheEntry} (holds : Entries st entries) (few : entries.length ≤ cacheMax) :
    ∃ after chains' free', writeMultiple comp st entries = some after ∧
      Accounts after chains' free' [] ∧ after.indexLast = st.indexLast ∧ after.cache = st.cache ∧
      (∀ e ∈ entries, e.flag = .delete → ¬ Live after e.record.sysno) ∧
      (∀ s, (∀ e ∈ entries, e.flag ≠ .nop → e.record.sysno ≠ s) →
        after.index s = st.index s) ∧
      ∀ e ∈ entries, e.kept = true → ∃ entry, after.index e.record.sysno = some entry ∧
        entry.size ≠ 0 ∧ Stored after entry
          (withRef (entries.filter CacheEntry.kept).length
            ((comp.store (Chunk.gather ⟨none, [], []⟩ entries).out).1 ::
              (comp.store (Chunk.gather ⟨none, [], []⟩ entries).out).2)) := by
  have gathered : Gathered st { last := none, out := [], sysnos := [] } [] :=
    ⟨nodup_nil, fun _ mem => absurd mem not_mem_nil,
      fun _ mem => absurd mem not_mem_nil, fun _ mem => absurd mem not_mem_nil⟩
  obtain ⟨middle, chains₁, free₁, pending, run, accounts₁, gathered₁, last, cache, gone, frame⟩ :=
    accounts.writeEntries holds gathered fun _ _ => not_mem_nil
  generalize chunkEq : Chunk.gather { last := none, out := [], sysnos := [] } entries = chunk at *
  have sysnos : chunk.sysnos = (entries.filter CacheEntry.kept).map fun e => e.record.sysno := by
    rw [← chunkEq, sysnos_gather, nil_append]
  have count : chunk.sysnos.length = (entries.filter CacheEntry.kept).length := by
    rw [sysnos, length_map]
  have starts : Records.writeMultiple comp st entries = flushShared comp middle chunk := by
    rw [Records.writeMultiple, run]
    rfl
  rw [starts, flushShared]
  by_cases nothing : chunk.sysnos = []
  · rw [if_pos nothing]
    have none : pending = [] := by
      apply eq_nil_iff_forall_not_mem.mpr
      intro s mem
      have inside := gathered₁.waiting s mem
      rw [nothing] at inside
      cases inside
    subst none
    refine ⟨middle, chains₁, free₁, rfl, accounts₁, last, cache, gone, fun s free => ?_,
      fun e mem kept => ?_⟩
    · exact frame s fun e mem deleted => free e mem (by rw [deleted]; decide)
    · have inside : e ∈ entries.filter CacheEntry.kept := mem_filter.mpr ⟨mem, kept⟩
      rw [nothing] at sysnos
      have empty := map_eq_nil_iff.mp sysnos.symm
      rw [empty] at inside
      cases inside
  · rw [if_neg nothing]
    have length : chunk.sysnos.length ≤ cacheMax := by
      rw [count]
      exact Nat.le_trans (length_filter_le _ _) few
    obtain ⟨after, chains', free', entry, runs, accounts', index, nonzero, last', cache', stored⟩ :=
      accounts₁.writeTmpBuf gathered₁.nodup nothing length gathered₁.known gathered₁.waiting
        gathered₁.unread
    have inside : ∀ e ∈ entries, e.kept = true → e.record.sysno ∈ chunk.sysnos := by
      intro e mem kept
      rw [sysnos]
      exact mem_map.mpr ⟨e, mem_filter.mpr ⟨mem, kept⟩, rfl⟩
    have from' : ∀ s ∈ chunk.sysnos, ∃ e ∈ entries, e.kept = true ∧ e.record.sysno = s := by
      intro s mem
      rw [sysnos] at mem
      obtain ⟨e, kept, eq⟩ := mem_map.mp mem
      obtain ⟨there, yes⟩ := mem_filter.mp kept
      exact ⟨e, there, yes, eq⟩
    dsimp only
    refine ⟨after, chains', free', runs, accounts', last'.trans last, cache'.trans cache,
      fun e mem deleted => ?_, fun s free => ?_, fun e mem kept => ?_⟩
    · have outside : e.record.sysno ∉ chunk.sysnos := by
        intro also
        obtain ⟨d, there, yes, eq⟩ := from' _ also
        have one := inj_on_of_nodup_map holds.nodup there mem eq
        rw [one] at yes
        unfold CacheEntry.kept at yes
        rw [deleted] at yes
        cases yes
      rintro ⟨old, found, size⟩
      rw [index, if_neg outside] at found
      exact gone e mem deleted ⟨old, found, size⟩
    · have outside : s ∉ chunk.sysnos := by
        intro also
        obtain ⟨d, there, yes, eq⟩ := from' _ also
        apply free d there _ eq
        intro nop
        unfold CacheEntry.kept at yes
        rw [nop] at yes
        cases yes
      rw [index, if_neg outside]
      exact frame s fun e mem deleted => free e mem (by rw [deleted]; decide)
    · rw [index, if_pos (inside e mem kept), ← count]
      exact ⟨entry, rfl, nonzero, stored⟩

end Zebra.Records
