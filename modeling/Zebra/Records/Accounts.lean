import Zebra.Records.Flushing

/-!
# The accounts of the record store over whole runs

Whatever is done with the records, the blocks, the reference counts and the index entries fit
together.  An entry of the cache keeps its flag when it has one, so that a record that is waiting to
be written is written even when it is deleted.
-/

namespace Zebra.Records

open List

/-- A store and the records that have been made and not been deleted. -/
structure Session where
  store : Store
  alive : List Nat

/-- The records that are there after an operation; one that is not got is not deleted. -/
def aliveAfter (comp : Compression) (session : Session) : Op → List Nat
  | .new => session.store.indexLast :: session.alive
  | .del sysno =>
    if ((recGet comp session.store sysno).bind Prod.snd).isSome then
      session.alive.filter (· ≠ sysno)
    else session.alive
  | _ => session.alive

def sessionStep (comp : Compression) (session : Session) (op : Op) : Option Session :=
  (opStep comp session.store op).map fun store =>
    { store, alive := aliveAfter comp session op }

def sessionRun (comp : Compression) : List Op → Session → Option Session
  | [], session => some session
  | op :: ops, session => (sessionStep comp session op).bind (sessionRun comp ops)

def newSession : Session :=
  { store := newStore, alive := [] }

/-- A record is in the index, or in the cache to be there after the next flush. -/
def Present (st : Store) (sysno : Nat) : Prop :=
  match cacheLookup st sysno with
  | some e => e.flag ≠ .delete
  | none => Live st sysno

/-- Every block is in one chain or free, once; the count of a chain is the number of entries that
refer to it; and the records that refer to chains are those that have not been deleted. -/
structure StorageAccounts (session : Session) : Prop where
  accounts : ∃ chains free, Accounts session.store chains free []
  released : ∀ s, Present session.store s ↔ s ∈ session.alive

/-- A record is not deleted while it waits to be written. -/
def Written (session : Session) : Op → Prop
  | .del sysno =>
    ∀ e, cacheLookup session.store sysno = some e → e.flag ≠ .new ∧ e.flag ≠ .write
  | _ => True

/-- In no step of a run a record is deleted while it waits to be written. -/
def Steady (comp : Compression) : List Op → Session → Prop
  | [], _ => True
  | op :: ops, session =>
    Written session op ∧
      ∀ next, sessionStep comp session op = some next → Steady comp ops next

/-- The store between two operations. -/
structure Sound (st : Store) : Prop where
  accounts : ∃ chains free, Accounts st chains free []
  entries : Entries st st.cache
  few : st.cache.length ≤ cacheMax

section

variable {st : Store}

variable {e : CacheEntry}

theorem cacheLookup_some {s : Nat} (found : cacheLookup st s = some e) :
    e ∈ st.cache ∧ e.record.sysno = s :=
  ⟨mem_of_find?_eq_some found, of_decide_eq_true (find?_some found :)⟩

theorem present_of_lookup {s : Nat} (found : cacheLookup st s = some e) :
    Present st s ↔ e.flag ≠ .delete := by
  unfold Present
  rw [found]

theorem cacheLookup_none {s : Nat} (found : cacheLookup st s = none) :
    ∀ e ∈ st.cache, e.record.sysno ≠ s := by
  intro e mem eq
  exact find?_eq_none.mp found e mem (decide_eq_true eq)

theorem find_of_nodup {cache : List CacheEntry}
    (nodup : (cache.map fun e => e.record.sysno).Nodup) (mem : e ∈ cache) :
    cache.find? (fun d => d.record.sysno = e.record.sysno) = some e := by
  cases found : cache.find? (fun d => d.record.sysno = e.record.sysno) with
  | none => exact absurd (decide_eq_true rfl) (find?_eq_none.mp found e mem)
  | some d =>
    have eq : d.record.sysno = e.record.sysno := of_decide_eq_true (find?_some found :)
    rw [inj_on_of_nodup_map nodup (mem_of_find?_eq_some found) mem eq]

theorem Entries.sublist {entries part : List CacheEntry} (holds : Entries st entries)
    (sub : part.Sublist entries) : Entries st part where
  nodup := (sub.map _).nodup holds.nodup
  known e mem := holds.known e (sub.subset mem)
  new e mem := holds.new e (sub.subset mem)
  live e mem := holds.live e (sub.subset mem)

theorem Entries.transport {entries : List CacheEntry} (holds : Entries st entries) {after : Store}
    (last : st.indexLast ≤ after.indexLast)
    (index : ∀ e ∈ entries, after.index e.record.sysno = st.index e.record.sysno) :
    Entries after entries where
  nodup := holds.nodup
  known e mem := Nat.lt_of_lt_of_le (holds.known e mem) last
  new e mem flag := by
    rw [index e mem]
    exact holds.new e mem flag
  live e mem flag := by
    obtain ⟨entry, found, size⟩ := holds.live e mem flag
    exact ⟨entry, by rw [index e mem]; exact found, size⟩

theorem Sound.cacheFlush (comp : Compression) (sound : Sound st) (saveCount : Nat) :
    ∃ after, cacheFlush comp st saveCount = some after ∧ Sound after ∧
      after.indexLast = st.indexLast ∧ after.cache.length ≤ saveCount ∧
      (∀ e ∈ after.cache, e ∈ st.cache) ∧ (∀ s, Present after s ↔ Present st s) ∧
      ∀ s, cacheLookup st s = none → after.index s = st.index s := by
  obtain ⟨chains, free, accounts⟩ := sound.accounts
  have split := take_append_drop
    (st.cache.length - if st.cache.length ≤ saveCount then 0 else saveCount) st.cache
  have length : (st.cache.drop
      (st.cache.length - if st.cache.length ≤ saveCount then 0 else saveCount)).length ≤
        saveCount := by
    rw [length_drop]
    split <;> omega
  unfold Records.cacheFlush
  dsimp only
  generalize st.cache.length - (if st.cache.length ≤ saveCount then 0 else saveCount) = count at *
  generalize takeEq : st.cache.take count = front at *
  generalize dropEq : st.cache.drop count = back at *
  have all := sound.entries
  have apart : ∀ e ∈ front, ∀ d ∈ back, e.record.sysno ≠ d.record.sysno := by
    have nodup := all.nodup
    rw [← split, map_append, nodup_append] at nodup
    exact fun e mem d inside => nodup.2.2 _ (mem_map_of_mem mem) _ (mem_map_of_mem inside)
  have frontHolds : Entries st front := all.sublist (by
    rw [← takeEq]
    exact take_sublist _ _)
  have backHolds : Entries st back := all.sublist (by
    rw [← dropEq]
    exact drop_sublist _ _)
  have few : front.length ≤ cacheMax := by
    have whole := sound.few
    rw [← split, length_append] at whole
    omega
  obtain ⟨written, chains', free', run, accounts', last, cache, gone, frame, kept⟩ :=
    accounts.writeMultiple comp frontHolds few
  have lookup : ∀ s, cacheLookup { written with cache := back } s =
      back.find? fun e => e.record.sysno = s := fun _ => rfl
  have lookupOld : ∀ s, cacheLookup st s =
      (front.find? fun e => e.record.sysno = s).or (back.find? fun e => e.record.sysno = s) := by
    intro s
    rw [cacheLookup, ← split, find?_append]
  refine ⟨{ written with cache := back }, by rw [run]; rfl, ⟨⟨chains', free', ?_⟩, ?_, ?_⟩, last,
    length, ?_, ?_, ?_⟩
  · exact ⟨accounts'.blocks, accounts'.refs, accounts'.shared, accounts'.entries,
      accounts'.known⟩
  · have holds : Entries { written with cache := back } back := by
      apply backHolds.transport
      · exact Nat.le_of_eq last.symm
      · intro d inside
        exact frame _ fun e mem _ => apart e mem d inside
    exact holds
  · have whole := sound.few
    rw [← split, length_append] at whole
    dsimp only
    omega
  · intro e mem
    rw [← split]
    exact mem_append_right _ mem
  · intro s
    unfold Present
    rw [lookup, lookupOld]
    cases seen : front.find? fun e => e.record.sysno = s with
    | some e =>
      have mem := mem_of_find?_eq_some seen
      have eq : e.record.sysno = s := of_decide_eq_true (find?_some seen :)
      have notBack : (back.find? fun d => d.record.sysno = s) = none := by
        apply find?_eq_none.mpr
        intro d inside same
        exact apart e mem d inside (eq.trans (of_decide_eq_true same).symm)
      rw [notBack]
      dsimp only [Option.or]
      cases flag : e.flag with
      | delete =>
        rw [← eq]
        exact iff_of_false (gone e mem flag) (fun not => not rfl)
      | nop =>
        have live := frontHolds.live e mem (by rw [flag]; decide)
        have same : written.index s = st.index s := by
          apply frame s
          intro d inside notNop other
          have one := inj_on_of_nodup_map frontHolds.nodup inside mem (other.trans eq.symm)
          rw [one] at notNop
          exact notNop flag
        obtain ⟨entry, found, size⟩ := live
        rw [eq, ← same] at found
        exact iff_of_true ⟨entry, found, size⟩ (by decide)
      | new | write =>
        obtain ⟨entry, found, size, _⟩ := kept e mem (by
          unfold CacheEntry.kept
          rw [flag]
          rfl)
        rw [eq] at found
        exact iff_of_true ⟨entry, found, size⟩ (by decide)
    | none =>
      dsimp only [Option.or]
      cases back.find? fun e => e.record.sysno = s with
      | some e => exact Iff.rfl
      | none =>
        have same : written.index s = st.index s := by
          apply frame s
          intro e mem _ eq
          exact find?_eq_none.mp seen e mem (decide_eq_true eq)
        unfold Live
        dsimp only
        rw [same]
  · intro s absent
    apply frame s
    intro e mem _ eq
    apply cacheLookup_none absent e _ eq
    rw [← split]
    exact mem_append_left _ mem

theorem Sound.cacheInsert (comp : Compression) (sound : Sound st) (record : Rec)
    (flag : CacheFlag) (absent : cacheLookup st record.sysno = none)
    (known : record.sysno < st.indexLast) (new : flag = .new → st.index record.sysno = none)
    (live : flag ≠ .new → Live st record.sysno) :
    ∃ after, cacheInsert comp st record flag = some after ∧ Sound after ∧
      after.indexLast = st.indexLast ∧
      cacheLookup after record.sysno = some { record, flag } ∧
      ∀ s, s ≠ record.sysno → (Present after s ↔ Present st s) := by
  obtain ⟨flushed, run, sound', last, room, sub, present, index⟩ :
      ∃ flushed, (if st.cache.length = cacheMax then Records.cacheFlush comp st 1
          else if st.cache ≠ [] ∧ comp.chunkSize < cacheUsed st.cache then
            Records.cacheFlush comp st 1
          else some st) = some flushed ∧ Sound flushed ∧ flushed.indexLast = st.indexLast ∧
        flushed.cache.length < cacheMax ∧ (∀ e ∈ flushed.cache, e ∈ st.cache) ∧
        (∀ s, Present flushed s ↔ Present st s) ∧
        ∀ s, cacheLookup st s = none → flushed.index s = st.index s := by
    have flush : ∃ flushed, Records.cacheFlush comp st 1 = some flushed ∧ Sound flushed ∧
        flushed.indexLast = st.indexLast ∧ flushed.cache.length < cacheMax ∧
        (∀ e ∈ flushed.cache, e ∈ st.cache) ∧ (∀ s, Present flushed s ↔ Present st s) ∧
        ∀ s, cacheLookup st s = none → flushed.index s = st.index s := by
      obtain ⟨flushed, run, sound', last, one, rest⟩ := sound.cacheFlush comp 1
      exact ⟨flushed, run, sound', last, Nat.lt_of_le_of_lt one (by decide), rest⟩
    split
    · exact flush
    case isFalse notFull =>
      split
      · exact flush
      · have few := sound.few
        exact ⟨st, rfl, sound, rfl, by omega, fun _ mem => mem, fun _ => Iff.rfl, fun _ _ => rfl⟩
  have notIn : ∀ e ∈ flushed.cache, e.record.sysno ≠ record.sysno :=
    fun e mem => cacheLookup_none absent e (sub e mem)
  have same := index record.sysno absent
  have lookup : ∀ s, cacheLookup { flushed with cache := flushed.cache ++ [{ record, flag }] } s =
      (cacheLookup flushed s).or
        (if record.sysno = s then some { record, flag } else none) := by
    intro s
    rw [cacheLookup, cacheLookup, find?_append]
    congr 1
    rw [find?_cons]
    by_cases here : record.sysno = s
    · rw [if_pos here]
      simp only [here, decide_true]
    · rw [if_neg here]
      simp only [here, decide_false]
      rfl
  have nothing : cacheLookup flushed record.sysno = none := by
    apply find?_eq_none.mpr
    intro e mem eq
    exact notIn e mem (of_decide_eq_true eq)
  refine ⟨{ flushed with cache := flushed.cache ++ [{ record, flag }] }, ?_, ⟨?_, ?_, ?_⟩, last,
    ?_, ?_⟩
  · unfold Records.cacheInsert
    dsimp only
    rw [run]
    rfl
  · obtain ⟨chains, free, accounts⟩ := sound'.accounts
    exact ⟨chains, free, accounts.blocks, accounts.refs, accounts.shared, accounts.entries,
      accounts.known⟩
  · have old := sound'.entries
    constructor
    case nodup =>
      dsimp only
      rw [map_append, nodup_append]
      refine ⟨old.nodup, nodup_singleton _, fun a mem b inside => ?_⟩
      obtain ⟨e, there, rfl⟩ := mem_map.mp mem
      have eq : b = record.sysno := mem_singleton.mp inside
      rw [eq]
      exact notIn e there
    case known =>
      intro e mem
      rcases mem_append.mp mem with mem | mem
      · exact old.known e mem
      · rw [mem_singleton.mp mem]
        dsimp only
        rw [last]
        exact known
    case new =>
      intro e mem isNew
      rcases mem_append.mp mem with mem | mem
      · exact old.new e mem isNew
      · rw [mem_singleton.mp mem] at isNew ⊢
        dsimp only at isNew ⊢
        rw [same]
        exact new isNew
    case live =>
      intro e mem notNew
      rcases mem_append.mp mem with mem | mem
      · exact old.live e mem notNew
      · rw [mem_singleton.mp mem] at notNew ⊢
        obtain ⟨entry, found, size⟩ := live notNew
        exact ⟨entry, same.trans found, size⟩
  · dsimp only
    rw [length_append, length_singleton]
    exact room
  · rw [lookup, nothing, if_pos rfl]
    rfl
  · intro s other
    rw [← present s]
    unfold Present
    rw [lookup, if_neg other.symm, Option.or_none]
    rfl

theorem find_cacheReplace (record : Rec) (flag : CacheFlag) (cache : List CacheEntry) (s : Nat) :
    (cacheReplace record flag cache).find? (fun e => e.record.sysno = s) =
      if s = record.sysno then
        (cache.find? fun e => e.record.sysno = s).map fun e =>
          { record, flag := if e.flag = .nop then flag else e.flag }
      else cache.find? fun e => e.record.sysno = s := by
  induction cache with
  | nil => simp [cacheReplace]
  | cons e cache induction =>
    rw [cacheReplace]
    by_cases hit : e.record.sysno = record.sysno
    · rw [if_pos hit]
      by_cases here : s = record.sysno
      · subst here
        simp [hit]
      · have other : ¬ record.sysno = s := fun eq => here eq.symm
        have other' : ¬ e.record.sysno = s := fun eq => other (hit.symm.trans eq)
        simp [here, other, other']
    · rw [if_neg hit, find?_cons, find?_cons, induction]
      by_cases here : s = record.sysno
      · subst here
        simp [hit]
      · by_cases same : e.record.sysno = s
        · simp [here, same]
        · simp [here, same]

theorem sysnos_cacheReplace (record : Rec) (flag : CacheFlag) (cache : List CacheEntry) :
    (cacheReplace record flag cache).map (fun e => e.record.sysno) =
      cache.map fun e => e.record.sysno := by
  induction cache with
  | nil => rfl
  | cons e cache induction =>
    rw [cacheReplace]
    by_cases hit : e.record.sysno = record.sysno
    · rw [if_pos hit, map_cons, map_cons, hit]
    · rw [if_neg hit, map_cons, map_cons, induction]

theorem Sound.cacheReplace (sound : Sound st) {record : Rec} {flag : CacheFlag}
    (notNew : flag ≠ .new) (found : cacheLookup st record.sysno = some e) :
    Sound { st with cache := cacheReplace record flag st.cache } ∧
      cacheLookup { st with cache := Records.cacheReplace record flag st.cache } record.sysno =
        some { record, flag := if e.flag = .nop then flag else e.flag } ∧
      ∀ s, s ≠ record.sysno →
        (Present { st with cache := Records.cacheReplace record flag st.cache } s ↔
          Present st s) := by
  have lookup : ∀ s, cacheLookup
      { st with cache := Records.cacheReplace record flag st.cache } s =
        if s = record.sysno then
          (cacheLookup st s).map fun e =>
            { record, flag := if e.flag = .nop then flag else e.flag }
        else cacheLookup st s := fun s => find_cacheReplace record flag st.cache s
  have nodup : ((Records.cacheReplace record flag st.cache).map
      fun e => e.record.sysno).Nodup := by
    rw [sysnos_cacheReplace]
    exact sound.entries.nodup
  have members : ∀ d ∈ Records.cacheReplace record flag st.cache,
      ∃ old ∈ st.cache, old.record.sysno = d.record.sysno ∧
        (d.flag = .new ↔ old.flag = .new) := by
    intro d mem
    have seen : cacheLookup { st with cache := Records.cacheReplace record flag st.cache }
        d.record.sysno = some d := find_of_nodup nodup mem
    rw [lookup] at seen
    by_cases here : d.record.sysno = record.sysno
    · rw [if_pos here] at seen
      obtain ⟨old, was, eq⟩ := Option.map_eq_some_iff.mp seen
      obtain ⟨inside, number⟩ := cacheLookup_some was
      refine ⟨old, inside, number, ?_⟩
      rw [← eq]
      dsimp only
      by_cases nop : old.flag = .nop
      · rw [if_pos nop, nop]
        exact iff_of_false notNew (by decide)
      · rw [if_neg nop]
    · rw [if_neg here] at seen
      exact ⟨d, (cacheLookup_some seen).1, rfl, Iff.rfl⟩
  refine ⟨⟨?_, ⟨nodup, ?_, ?_, ?_⟩, ?_⟩, ?_, ?_⟩
  · obtain ⟨chains, free, accounts⟩ := sound.accounts
    exact ⟨chains, free, accounts.blocks, accounts.refs, accounts.shared, accounts.entries,
      accounts.known⟩
  · intro d mem
    obtain ⟨old, inside, number, _⟩ := members d mem
    rw [← number]
    exact sound.entries.known old inside
  · intro d mem isNew
    obtain ⟨old, inside, number, same⟩ := members d mem
    rw [← number]
    exact sound.entries.new old inside (same.mp isNew)
  · intro d mem isOld
    obtain ⟨old, inside, number, same⟩ := members d mem
    rw [← number]
    exact sound.entries.live old inside fun new => isOld (same.mpr new)
  · have length := congrArg List.length (sysnos_cacheReplace record flag st.cache)
    rw [length_map, length_map] at length
    dsimp only
    rw [length]
    exact sound.few
  · rw [lookup, if_pos rfl, found]
    rfl
  · intro s other
    unfold Present
    rw [lookup, if_neg other]
    rfl

end

section

variable {st : Store}

/-- A record that has been made is in the index or in the cache. -/
theorem Sound.recNew (comp : Compression) (sound : Sound st) :
    ∃ after, recNew comp st = some after ∧ Sound after ∧ Present after st.indexLast ∧
      ∀ s, s ≠ st.indexLast → (Present after s ↔ Present st s) := by
  have next : Sound { st with indexLast := st.indexLast + 1, noRecords := st.noRecords + 1 } := by
    obtain ⟨chains, free, accounts⟩ := sound.accounts
    have same : ∀ t first, refers
        { st with indexLast := st.indexLast + 1, noRecords := st.noRecords + 1 } [] t first =
          refers st [] t first := by
      intro t first
      have none : refersTo st [] t first st.indexLast = false := by
        rw [Bool.eq_false_iff]
        intro holds
        obtain ⟨e, found, _⟩ := refersTo_iff.mp holds
        rw [accounts.known _ (Nat.le_refl _)] at found
        cases found
      have split : refers
          { st with indexLast := st.indexLast + 1, noRecords := st.noRecords + 1 } [] t first =
            (List.range (st.indexLast + 1)).countP (refersTo st [] t first) := rfl
      rw [split, range_succ, countP_append, countP_singleton, none]
      rfl
    refine ⟨⟨chains, free, accounts.blocks, ?_, ?_, accounts.entries, ?_⟩, ?_, sound.few⟩
    · intro t low c mem first head
      rw [same]
      exact accounts.refs t low c mem first head
    · intro t low c mem first head
      rw [same]
      exact accounts.shared t low c mem first head
    · exact fun s above => accounts.known s (Nat.le_of_succ_le above)
    · obtain ⟨nodup, known, new, live⟩ := sound.entries
      exact ⟨nodup, fun e mem => Nat.lt_succ_of_lt (known e mem), new, live⟩
  have absent : cacheLookup { st with
      indexLast := st.indexLast + 1, noRecords := st.noRecords + 1 } st.indexLast = none := by
    apply find?_eq_none.mpr
    intro e mem eq
    have less := sound.entries.known e mem
    rw [of_decide_eq_true eq] at less
    exact Nat.lt_irrefl _ less
  have unread : st.index st.indexLast = none := by
    obtain ⟨chains, free, accounts⟩ := sound.accounts
    exact accounts.known _ (Nat.le_refl _)
  have newKept : CacheFlag.new ≠ .delete := by decide
  let record : Rec := { sysno := st.indexLast, info := replicate recNoInfo [] }
  have absent' : cacheLookup { st with
      indexLast := st.indexLast + 1, noRecords := st.noRecords + 1 } record.sysno = none := absent
  obtain ⟨after, run, sound', _, lookup, present⟩ :=
    next.cacheInsert comp record .new absent' (Nat.lt_succ_self _) (fun _ => unread)
      fun not => absurd rfl not
  exact ⟨after, run, sound', (present_of_lookup lookup).mpr newKept, present⟩

theorem readRecord_some {comp : Compression} {s : Nat} {record : Rec}
    (read : readRecord comp st s = some record) : Live st s ∧ record.sysno = s := by
  unfold readRecord at read
  cases found : st.index s with
  | none =>
    rw [found] at read
    cases read
  | some entry =>
    rw [found] at read
    dsimp only at read
    split at read
    case isTrue => cases read
    case isFalse size =>
      refine ⟨⟨entry, found, size⟩, ?_⟩
      split at read
      · cases read
      · obtain ⟨tmpBuf, _, rest⟩ := Option.bind_eq_some_iff.mp read
        obtain ⟨inBuf, _, rest⟩ := Option.bind_eq_some_iff.mp rest
        obtain ⟨info, _, rfl⟩ := Option.map_eq_some_iff.mp rest
        rfl

/-- A record that is got is in the cache, with the flag it had, if it was there. -/
theorem Sound.recGet (comp : Compression) (sound : Sound st) (s : Nat) :
    ∃ after got, recGet comp st s = some (after, got) ∧ Sound after ∧
      (∀ r, Present after r ↔ Present st r) ∧
      ∀ record, got = some record → record.sysno = s ∧ ∃ e, cacheLookup after s = some e ∧
        (cacheLookup st s = some e ∨ cacheLookup st s = none ∧ e.flag = .nop) := by
  unfold Records.recGet
  cases cached : cacheLookup st s with
  | some e =>
    refine ⟨st, some e.record, rfl, sound, fun _ => Iff.rfl, fun record eq => ?_⟩
    cases eq
    exact ⟨(cacheLookup_some cached).2, e, cached, .inl rfl⟩
  | none =>
    dsimp only
    cases read : readRecord comp st s with
    | none => exact ⟨st, none, rfl, sound, fun _ => Iff.rfl, fun _ eq => by cases eq⟩
    | some record =>
      obtain ⟨live, number⟩ := readRecord_some read
      subst number
      have known : record.sysno < st.indexLast := by
        obtain ⟨chains, free, accounts⟩ := sound.accounts
        obtain ⟨entry, found, _⟩ := live
        by_contra above
        rw [accounts.known _ (by omega)] at found
        cases found
      obtain ⟨after, run, sound', _, lookup, present⟩ :=
        sound.cacheInsert comp record .nop cached known (fun eq => by cases eq) fun _ => live
      refine ⟨after, some record, by dsimp only; rw [run]; rfl, sound', fun r => ?_,
        fun other eq => ?_⟩
      · by_cases here : r = record.sysno
        · subst here
          have before : Present st record.sysno := by
            unfold Present
            rw [cached]
            exact live
          have nopKept : CacheFlag.nop ≠ .delete := by decide
          exact iff_of_true ((present_of_lookup lookup).mpr nopKept) before
        · exact present r here
      · cases eq
        exact ⟨rfl, _, lookup, .inr ⟨rfl, rfl⟩⟩

variable {session : Session}

/-- What an operation does to the accounts: they stay, unless a record is deleted while it waits to
be written. -/
theorem Sound.sessionStep (comp : Compression) (sound : Sound session.store) (op : Op) :
    ∃ next, sessionStep comp session op = some next ∧ Sound next.store ∧
      ((∀ s, Present session.store s ↔ s ∈ session.alive) →
        ((∀ s, Present next.store s ↔ s ∈ next.alive) ↔ Written session op)) := by
  cases op with
  | new =>
    obtain ⟨after, run, sound', made, present⟩ := sound.recNew comp
    refine ⟨{ store := after, alive := session.store.indexLast :: session.alive }, ?_, sound',
      fun released => iff_of_true (fun s => ?_) trivial⟩
    · rw [Records.sessionStep, opStep, run]
      rfl
    · rw [mem_cons]
      by_cases here : s = session.store.indexLast
      · rw [here]
        exact iff_of_true made (.inl rfl)
      · rw [present s here, released]
        exact (or_iff_right here).symm
  | get s =>
    obtain ⟨after, got, run, sound', present, _⟩ := sound.recGet comp s
    refine ⟨{ store := after, alive := session.alive }, ?_, sound',
      fun released => iff_of_true (fun r => ?_) trivial⟩
    · rw [Records.sessionStep, opStep, run]
      rfl
    · exact (present r).trans (released r)
  | put s info =>
    obtain ⟨after, got, run, sound', present, cached⟩ := sound.recGet comp s
    cases got with
    | none =>
      refine ⟨{ store := after, alive := session.alive }, ?_, sound',
        fun released => iff_of_true (fun r => (present r).trans (released r)) trivial⟩
      rw [Records.sessionStep, opStep, run]
      rfl
    | some record =>
      obtain ⟨_, e, found, _⟩ := cached record rfl
      let written : Rec := { sysno := s, info }
      have found' : cacheLookup after written.sysno = some e := found
      have notNew : CacheFlag.write ≠ .new := by decide
      obtain ⟨sound'', lookup, others⟩ := sound'.cacheReplace notNew found'
      refine ⟨{ store := { after with cache := Records.cacheReplace written .write after.cache }
                alive := session.alive }, ?_, sound'',
        fun released => iff_of_true (fun r => ?_) trivial⟩
      · rw [Records.sessionStep, opStep, run, Option.bind_some, recPut]
        dsimp only
        rw [found]
        rfl
      · by_cases here : r = s
        · subst here
          dsimp only
          rw [← released, ← present, present_of_lookup lookup, present_of_lookup found]
          dsimp only
          cases e.flag <;> decide
        · exact (others r here).trans ((present r).trans (released r))
  | del s =>
    obtain ⟨after, got, run, sound', present, cached⟩ := sound.recGet comp s
    cases got with
    | none =>
      refine ⟨{ store := after, alive := session.alive }, ?_, sound',
        fun released => iff_of_true (fun r => (present r).trans (released r))
          fun e found => ?_⟩
      · rw [Records.sessionStep, opStep, run, aliveAfter, run]
        rfl
      · rw [Records.recGet, found] at run
        cases run
    | some record =>
      obtain ⟨number, e, found, before⟩ := cached record rfl
      subst number
      have found' : cacheLookup { after with noRecords := after.noRecords - 1 }
          record.sysno = some e := found
      have sound₁ : Sound { after with noRecords := after.noRecords - 1 } := by
        obtain ⟨⟨chains, free, accounts⟩, entries, few⟩ := sound'
        refine ⟨⟨chains, free, accounts.blocks, accounts.refs, accounts.shared,
          accounts.entries, accounts.known⟩, ?_, few⟩
        exact ⟨entries.nodup, entries.known, entries.new, entries.live⟩
      have notNew : CacheFlag.delete ≠ .new := by decide
      obtain ⟨sound'', lookup, others⟩ := sound₁.cacheReplace notNew found'
      refine ⟨{ store := { after with
                  noRecords := after.noRecords - 1
                  cache := Records.cacheReplace record .delete after.cache }
                alive := session.alive.filter (· ≠ record.sysno) }, ?_, sound'',
        fun released => ?_⟩
      · rw [Records.sessionStep, opStep, run, Option.bind_some]
        dsimp only
        unfold Records.recDel
        dsimp only
        rw [found', aliveAfter, run]
        rfl
      · have gone : ((∀ r, Present { after with
              noRecords := after.noRecords - 1
              cache := Records.cacheReplace record .delete after.cache } r ↔
                r ∈ session.alive.filter (· ≠ record.sysno)) ↔
            e.flag ≠ .new ∧ e.flag ≠ .write) := by
          constructor
          · intro all
            have here := all record.sysno
            rw [present_of_lookup lookup, mem_filter] at here
            dsimp only at here
            have outside : ¬ (record.sysno ∈ session.alive ∧
                decide (record.sysno ≠ record.sysno) = true) :=
              fun both => of_decide_eq_true both.2 rfl
            have deleted := mt here.mp outside
            cases flag : e.flag with
            | nop => decide
            | delete => decide
            | new | write =>
              rw [flag] at deleted
              exact absurd (by decide) deleted
          · intro waits r
            rw [mem_filter]
            by_cases here : r = record.sysno
            · rw [here, present_of_lookup lookup]
              dsimp only
              refine iff_of_false (fun kept => ?_) fun both => of_decide_eq_true both.2 rfl
              cases flag : e.flag with
              | nop | delete =>
                rw [flag] at kept
                exact kept rfl
              | new => exact waits.1 flag
              | write => exact waits.2 flag
            · have same := (others r here).trans ((present r).trans (released r))
              rw [same]
              exact ⟨fun mem => ⟨mem, decide_eq_true here⟩, fun both => both.1⟩
        rw [gone]
        constructor
        · intro waits d seen
          rcases before with same | ⟨none, _⟩
          · rw [same] at seen
            cases seen
            exact waits
          · rw [none] at seen
            cases seen
        · intro written
          rcases before with same | ⟨_, nop⟩
          · exact written e same
          · rw [nop]
            decide
  | reopen =>
    obtain ⟨after, run, sound', _, _, _, present, _⟩ := sound.cacheFlush comp 0
    refine ⟨{ store := after, alive := session.alive }, ?_, sound',
      fun released => iff_of_true (fun r => (present r).trans (released r)) trivial⟩
    rw [Records.sessionStep, opStep, run]
    rfl

theorem Sound.storageAccounts (sound : Sound session.store)
    (released : ∀ s, Present session.store s ↔ s ∈ session.alive) : StorageAccounts session :=
  ⟨sound.accounts, released⟩

theorem Sound.sessionRun (comp : Compression) (ops : List Op) (sound : Sound session.store) :
    ∃ last, sessionRun comp ops session = some last ∧ Sound last.store := by
  induction ops generalizing session with
  | nil => exact ⟨session, rfl, sound⟩
  | cons op ops induction =>
    obtain ⟨next, step, sound', _⟩ := sound.sessionStep comp op
    obtain ⟨last, run, sound''⟩ := induction sound'
    refine ⟨last, ?_, sound''⟩
    rw [Records.sessionRun, step]
    exact run

theorem Sound.steady_iff (comp : Compression) (ops : List Op) (sound : Sound session.store)
    (released : ∀ s, Present session.store s ↔ s ∈ session.alive) :
    Steady comp ops session ↔ ∀ front, front <+: ops →
      ∃ last, Records.sessionRun comp front session = some last ∧ StorageAccounts last := by
  induction ops generalizing session with
  | nil =>
    refine iff_of_true trivial fun front start => ?_
    rw [prefix_nil.mp start]
    exact ⟨session, rfl, sound.storageAccounts released⟩
  | cons op ops induction =>
    obtain ⟨next, step, sound', holds⟩ := sound.sessionStep comp op
    have written := holds released
    have run : ∀ front, Records.sessionRun comp (op :: front) session =
        Records.sessionRun comp front next := by
      intro front
      rw [Records.sessionRun, step]
      rfl
    constructor
    · rintro ⟨now, later⟩ front start
      cases front with
      | nil => exact ⟨session, rfl, sound.storageAccounts released⟩
      | cons first front =>
        obtain ⟨rfl, rest⟩ := cons_prefix_cons.mp start
        rw [run]
        exact (induction sound' (written.mpr now)).mp (later next step) front rest
    · intro all
      have one : [op] <+: op :: ops := ⟨ops, rfl⟩
      obtain ⟨last, first, good⟩ := all [op] one
      rw [run] at first
      cases first
      refine ⟨written.mp good.released, fun other also => ?_⟩
      rw [step] at also
      cases also
      apply (induction sound' good.released).mpr
      intro front start
      obtain ⟨last, reached, good'⟩ := all (op :: front) (cons_prefix_cons.mpr ⟨rfl, start⟩)
      rw [run] at reached
      exact ⟨last, reached, good'⟩

theorem sound_newSession : Sound newSession.store := by
  have blocks : ∀ t, t < 2 → Blocks (newStore.classes t) [] [] [] := by
    intro t low
    constructor
    case capacity =>
      unfold newStore BlockClass.capacity
      dsimp only
      split <;> decide
    case last => exact Nat.zero_lt_one
    case freeList => exact Follows.nil
    case chained => exact fun _ mem => absurd mem not_mem_nil
    case once => exact List.Perm.nil
    case there =>
      rintro b (mem | mem)
      · cases mem
      · cases mem
    case used => rfl
    case fits => exact fun _ _ found => by cases found
  refine ⟨⟨fun _ => [], fun _ => [], blocks, ?_, ?_, ?_, fun _ _ => rfl⟩, ⟨?_, ?_, ?_, ?_⟩,
    Nat.zero_le _⟩
  · exact fun _ _ _ mem => absurd mem not_mem_nil
  · exact fun _ _ _ mem => absurd mem not_mem_nil
  · exact fun _ _ found => by cases found
  · exact nodup_nil
  · exact fun _ mem => absurd mem not_mem_nil
  · exact fun _ mem => absurd mem not_mem_nil
  · exact fun _ mem => absurd mem not_mem_nil

end

/-- In every run blocks, reference counts and index entries fit together; and as long as no record
is deleted while it waits to be written, and no longer, a chain is kept for the records that have
not been deleted and for no others. -/
theorem storage_accounts (comp : Compression) (ops : List Op) :
    (∃ session, sessionRun comp ops newSession = some session ∧
      ∃ chains free, Accounts session.store chains free []) ∧
    (Steady comp ops newSession ↔ ∀ front, front <+: ops →
      ∃ session, sessionRun comp front newSession = some session ∧ StorageAccounts session) := by
  have released : ∀ s, Present newSession.store s ↔ s ∈ newSession.alive := by
    intro s
    refine iff_of_false ?_ not_mem_nil
    rintro ⟨_, found, _⟩
    cases found
  obtain ⟨last, run, sound⟩ := sound_newSession.sessionRun comp ops
  exact ⟨⟨last, run, sound.accounts⟩, sound_newSession.steady_iff comp ops released⟩

/-- A record that is deleted right after it has been made is written. -/
theorem not_storage_accounts :
    ¬ ∀ (comp : Compression) (ops : List Op) (session : Session),
      sessionRun comp ops newSession = some session → StorageAccounts session := by
  intro all
  let comp : Compression :=
    { method := recCompressNone, compress := fun _ => none, uncompress := fun _ _ => none }
  obtain ⟨session, run, _⟩ := sound_newSession.sessionRun comp [.new, .del 1, .reopen]
  have value : ((sessionRun comp [.new, .del 1, .reopen] newSession).map fun session =>
      (session.alive, session.store.cache.length,
        (session.store.index 1).map fun entry => entry.size)) = some ([], 0, some 12) := by
    decide
  rw [run, Option.map_some, Option.some.injEq, Prod.mk.injEq, Prod.mk.injEq] at value
  obtain ⟨alive, empty, indexed⟩ := value
  obtain ⟨entry, found, size⟩ := Option.map_eq_some_iff.mp indexed
  have absent : cacheLookup session.store 1 = none := by
    rw [cacheLookup, length_eq_zero_iff.mp empty]
    rfl
  have present : Present session.store 1 := by
    unfold Present
    rw [absent]
    exact ⟨entry, found, by rw [size]; decide⟩
  have kept := ((all comp _ session run).released 1).mp present
  rw [alive] at kept
  exact absurd kept not_mem_nil

end Zebra.Records
