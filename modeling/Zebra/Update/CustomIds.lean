import Zebra.Update.Lives

/-!
# Custom record ids

A record filter may give a record an id of its own.  `reckeys.c` remembers it in the key buffer,
which all records share, and `all_matches_add` takes it from there.  For every run it is followed
which version of a record each posting was written for, and which id that version declared.
-/

namespace Zebra.Update

open List

namespace Records

variable {ρ : Type} {P : Nat → ρ → Prop} {p : Records ρ} {sysno : Nat} {record : ρ}

/-- All records that are in the cache or in the files meet `P`. -/
structure Every (P : Nat → ρ → Prop) (p : Records ρ) : Prop where
  cache : ∀ e ∈ p.cache, P e.sysno e.record
  disk : ∀ sysno record, p.disk sysno = some record → P sysno record

theorem every_writeMultiple {disk : Nat → Option ρ} {entries : List (RecordCacheEntry ρ)}
    (entries_meet : ∀ e ∈ entries, P e.sysno e.record)
    (disk_meets : ∀ sysno record, disk sysno = some record → P sysno record) :
    ∀ sysno record, writeMultiple disk entries sysno = some record → P sysno record := by
  induction entries generalizing disk with
  | nil => exact disk_meets
  | cons e entries induction =>
    apply induction (fun e' mem => entries_meet e' (mem_cons_of_mem _ mem))
    intro sysno record here
    by_cases same : sysno = e.sysno
    · subst same
      rw [writeEntry, Function.update_self] at here
      unfold RecordCacheEntry.stored at here
      split at here
      · cases here
        exact entries_meet e mem_cons_self
      · cases here
        exact entries_meet e mem_cons_self
      · cases here
      · exact disk_meets _ _ here
    · rw [writeEntry, Function.update_of_ne same] at here
      exact disk_meets sysno record here

theorem Every.cacheFlush (every : p.Every P) (saveCount : Nat) :
    (p.cacheFlush saveCount).Every P where
  cache e mem := every.cache e (mem_of_mem_drop mem)
  disk := every_writeMultiple (fun e mem => every.cache e (mem_of_mem_take mem)) every.disk

theorem Every.cacheInsert (every : p.Every P) (size : ρ → Nat) {e : RecordCacheEntry ρ}
    (meets : P e.sysno e.record) : (p.cacheInsert size e).Every P := by
  have room : (Records.makeRoom size p).Every P := by
    unfold Records.makeRoom
    split
    · exact every.cacheFlush 1
    · split
      · exact every.cacheFlush 1
      · exact every
  refine ⟨fun e' mem => ?_, room.disk⟩
  rcases mem_append.mp mem with mem | mem
  · exact room.cache e' mem
  · rw [mem_singleton] at mem
    exact mem ▸ meets

theorem every_cachePut {flag : RecordCacheFlag} {cache cache' : List (RecordCacheEntry ρ)}
    (put : cachePut sysno record flag cache = some cache') (meets : P sysno record)
    (every : ∀ e ∈ cache, P e.sysno e.record) : ∀ e ∈ cache', P e.sysno e.record := by
  induction cache generalizing cache' with
  | nil => cases put
  | cons first cache induction =>
    rw [cachePut] at put
    have rest := fun e mem => every e (mem_cons_of_mem first mem)
    split at put
    · rename_i same
      cases put
      intro e mem
      rcases mem_cons.mp mem with rfl | mem
      · exact same ▸ meets
      · exact rest e mem
    · obtain ⟨cache₁, put₁, rfl⟩ := Option.map_eq_some_iff.mp put
      intro e mem
      rcases mem_cons.mp mem with rfl | mem
      · exact every e mem_cons_self
      · exact induction put₁ rest e mem

theorem Every.get (every : p.Every P) (size : ρ → Nat) (sysno : Nat) :
    (p.get size sysno).2.Every P ∧ ∀ record, (p.get size sysno).1 = some record →
      P sysno record := by
  unfold Records.get
  split
  · rename_i e found
    refine ⟨every, fun record here => ?_⟩
    cases here
    have same : e.sysno = sysno := by simpa using find?_some found
    exact same ▸ every.cache e (mem_of_find?_eq_some found)
  · split
    · exact ⟨every, fun record here => (by cases here)⟩
    · rename_i record here
      refine ⟨every.cacheInsert size (every.disk sysno record here), fun record' same => ?_⟩
      cases same
      exact every.disk sysno record here

theorem Every.new (every : p.Every P) (size : ρ → Nat) {blank : ρ} {out : Nat × Records ρ}
    (made : p.new size blank = some out) (meets : ∀ sysno, P sysno blank) : out.2.Every P := by
  unfold Records.new at made
  split at made
  · cases made
    apply Every.cacheInsert
    · exact ⟨every.cache, every.disk⟩
    · exact meets _
  · cases made

theorem Every.put (every : p.Every P) (size : ρ → Nat) (meets : P sysno record) :
    (p.put size sysno record).Every P := by
  unfold Records.put
  split
  · rename_i cache put
    exact ⟨every_cachePut put meets every.cache, every.disk⟩
  · exact every.cacheInsert size meets

theorem Every.del (every : p.Every P) (size : ρ → Nat) (meets : P sysno record) :
    (p.del size sysno record).Every P := by
  unfold Records.del
  dsimp only
  split
  · rename_i cache put
    exact ⟨every_cachePut put meets every.cache, every.disk⟩
  · apply Every.cacheInsert
    · exact ⟨every.cache, every.disk⟩
    · exact meets

end Records

variable {zh : ZebraHandle} {reg : Register} {req : Request} {w w' : World}

def filterKeys (req : Request) : List RecKey := req.stream.elim [] Extraction.keys

/-- The custom record id that the filter declares: the last one that is not 0. -/
def ownId (req : Request) : Int :=
  (((filterKeys req).map RecKey.recordId).filter (· ≠ 0)).getLast?.getD 0

/-- The entry that `all_matches_add` writes. -/
def allMatchesEntry (zh : ZebraHandle) (recordId : Int) (sysno : Nat) : RecKey where
  str := []
  key := [(zh.allRecordsOrd : Int), recordId, 0] ++
    (if zh.segmentIndexing then [0] else []) ++ [(sysno : Int)]

theorem allMatchesEntry_recordId (recordId : Int) (sysno : Nat) :
    (allMatchesEntry zh recordId sysno).recordId = recordId := rfl

theorem customRecordId_writeAll (keys : RecKeys) (entries : List RecKey) :
    (keys.writeAll entries).customRecordId =
      ((entries.map RecKey.recordId).filter (· ≠ 0)).getLast?.getD keys.customRecordId := by
  induction entries generalizing keys with
  | nil => rfl
  | cons entry entries induction =>
    have step : (keys.writeAll (entry :: entries)) = (keys.write entry).writeAll entries := rfl
    rw [step, induction, map_cons]
    by_cases zero : entry.recordId = 0
    · rw [filter_cons_of_neg (by simp [zero])]
      simp [RecKeys.write, zero]
    · rw [filter_cons_of_pos (by simp [zero]), getLast?_cons]
      simp [RecKeys.write, zero]

theorem mem_writeAll (keys : RecKeys) (entries : List RecKey) (entry : RecKey) :
    entry ∈ (keys.writeAll entries).entries ↔ entry ∈ keys.entries ∨ entry ∈ entries := by
  induction entries generalizing keys with
  | nil => simp [RecKeys.writeAll]
  | cons first entries induction =>
    have step : (keys.writeAll (first :: entries)) = (keys.write first).writeAll entries := rfl
    have written : entry ∈ (keys.write first).entries ↔ entry ∈ keys.entries ∨ entry = first := by
      unfold RecKeys.write
      dsimp only
      split
      · rename_i there
        exact ⟨.inl, fun either => either.elim id fun same => same ▸ there⟩
      · rw [mem_append, mem_singleton]
    rw [step, induction, written, mem_cons, or_assoc]

/-- The id that is remembered when a record has been extracted. -/
theorem streamKeys_custom (reg : Register) (req : Request) :
    (streamKeys reg req).customRecordId =
      if ownId req ≠ 0 then ownId req else reg.keys.customRecordId := by
  rw [streamKeys, customRecordId_writeAll]
  unfold ownId filterKeys
  cases last : (((req.stream.elim [] Extraction.keys).map RecKey.recordId).filter
      (· ≠ 0)).getLast? with
  | none => rfl
  | some id =>
    have mem := mem_of_getLast? last
    have nonzero : id ≠ 0 := of_decide_eq_true (mem_filter.mp mem).2
    rw [Option.getD_some, Option.getD_some, if_pos nonzero]

/-- The keys of a version are those of the filter and the always-matches entry. -/
theorem mem_recordKeys (zh : ZebraHandle) {e : Extraction} (stream : req.stream = some e)
    (sysno : Nat)
    (entry : RecKey) :
    entry ∈ (recordKeys zh reg req sysno).entries ↔
      entry ∈ filterKeys req ∨
        entry = allMatchesEntry zh (streamKeys reg req).customRecordId sysno := by
  have one : recordKeys zh reg req sysno = (streamKeys reg req).writeAll
      [allMatchesEntry zh (streamKeys reg req).customRecordId sysno] := by
    rw [recordKeys, stream, Option.isSome_some, if_pos rfl]
    rfl
  rw [one, mem_writeAll, mem_singleton, streamKeys, mem_writeAll]
  simp [RecKeys.reset, filterKeys]

/-- A record brings a new version: it is inserted or updated. -/
def BringsVersion (zh : ZebraHandle) (reg : Register) (req : Request) : Prop :=
  (∃ matchStr, plan zh reg req = .add matchStr) ∨
    ∃ sysno matchStr action, plan zh reg req = .change sysno matchStr action ∧
      ¬(action = .delete ∨ action = .aDelete)

/-- When a record is inserted or updated, its filter gives its id with each key; and if it declares
none, the key buffer remembers none. -/
def KeepsOwnId (zh : ZebraHandle) (w : World) (req : Request) : Prop :=
  BringsVersion zh w.reg req →
    (∀ entry ∈ filterKeys req, entry.recordId = ownId req) ∧
      (ownId req = 0 → w.reg.keys.customRecordId = 0)

/-- The keys of a version carry its own id exactly when the condition is met. -/
theorem recordKeys_own_iff (zh : ZebraHandle) {e : Extraction} (stream : req.stream = some e)
    (sysno : Nat) :
    (∀ entry ∈ (recordKeys zh reg req sysno).entries, entry.recordId = ownId req) ↔
      (∀ entry ∈ filterKeys req, entry.recordId = ownId req) ∧
        (ownId req = 0 → reg.keys.customRecordId = 0) := by
  have custom := streamKeys_custom reg req
  constructor
  · intro own
    refine ⟨fun entry mem => own entry ((mem_recordKeys zh stream sysno entry).mpr (.inl mem)),
      fun zero => ?_⟩
    have all := own _ ((mem_recordKeys zh stream sysno _).mpr (.inr rfl))
    rw [allMatchesEntry_recordId, custom, if_neg (not_not.mpr zero), zero] at all
    exact all
  · rintro ⟨uniform, clean⟩ entry mem
    rcases (mem_recordKeys zh stream sysno entry).mp mem with mem | rfl
    · exact uniform entry mem
    · rw [allMatchesEntry_recordId, custom]
      split
      · rfl
      · rename_i zero
        rw [clean (not_not.mp zero), not_not.mp zero]

/-- A version that is written: the record, the id that it declares and the keys in the buffer. -/
structure Written where
  sysno : Nat
  ownId : Int
  keys : List RecKey

/-- The version that a request is accepted for, if any. -/
def written (zh : ZebraHandle) (reg : Register) (req : Request) : List Written :=
  match accepted zh reg req with
  | some (.inserted sysno _ version) => [⟨sysno, ownId req, version.keys⟩]
  | some (.updated sysno version) => [⟨sysno, ownId req, version.keys⟩]
  | some (.deleted _) => []
  | none => []

/-- The worlds that are reached when every request meets `allowed`, with all versions that have been
written. -/
inductive History (zh : ZebraHandle) (allowed : World → Request → Prop) :
    World → List Written → Prop where
  | empty (indexLast compressionChunkSize : Nat) (pos : 0 < indexLast) :
      History zh allowed (World.empty indexLast compressionChunkSize) []
  | request {w w' : World} {versions : List Written} (req : Request)
      (before : History zh allowed w versions) (meets : allowed w req)
      (step : w.step zh req = .ok w') :
      History zh allowed w' (versions ++ written zh w.reg req)
  | reopen {w : World} {versions : List Written} (before : History zh allowed w versions) :
      History zh allowed w.reopen versions

def Posting.recordId (staticRankEnable : Bool) (posting : Posting) : Option Int :=
  posting.key[if staticRankEnable then 1 else 0]?

/-- Every version carries its own id. -/
structure Own (zh : ZebraHandle) (w : World) (versions : List Written) : Prop where
  buffer : ∀ v ∈ versions, ∀ entry ∈ v.keys, entry.recordId = v.ownId
  allMatches : ∀ v ∈ versions, allMatchesEntry zh v.ownId v.sysno ∈ v.keys
  /-- A posting is written for a version, and has its id or the number of the record. -/
  postings : ∀ write ∈ w.reg.keyBlock, ∃ v ∈ versions, write.sysno = v.sysno ∧
    write.posting.recordId zh.staticrank = some (if v.ownId ≠ 0 then v.ownId else v.sysno)

/-- Every posting and every stored key is a key of a version of the record. -/
structure Sourced (zh : ZebraHandle) (reg : Register) (versions : List Written) : Prop where
  block : ∀ write ∈ reg.keyBlock, ∃ v ∈ versions, write.sysno = v.sysno ∧
    ∃ entry ∈ v.keys, ∃ rank, write.posting = entry.posting zh.staticrank v.sysno rank
  store : reg.records.Every fun sysno record => ∀ entry ∈ record.delKeys,
    ∃ v ∈ versions, v.sysno = sysno ∧ entry ∈ v.keys

theorem Sourced.mono {versions versions' : List Written} (sourced : Sourced zh reg versions)
    (sub : ∀ v ∈ versions, v ∈ versions') : Sourced zh reg versions' where
  block write mem := by
    obtain ⟨v, there, rest⟩ := sourced.block write mem
    exact ⟨v, sub v there, rest⟩
  store := by
    refine ⟨fun e mem entry stored => ?_, fun sysno record here entry stored => ?_⟩
    · obtain ⟨v, there, rest⟩ := sourced.store.cache e mem entry stored
      exact ⟨v, sub v there, rest⟩
    · obtain ⟨v, there, rest⟩ := sourced.store.disk sysno record here entry stored
      exact ⟨v, sub v there, rest⟩

variable {versions : List Written}

theorem flush_sourced {zei : Explain} {p p' : KeyBlock} {sysno : Nat}
    {insKeys delKeys : Option (List RecKey)} {insRank delRank : Int}
    (flushed : (flushRecordKeys2 zh.staticrank zei p sysno insKeys insRank delKeys delRank).2 =
      .ok p')
    (block : ∀ write ∈ p, ∃ v ∈ versions, write.sysno = v.sysno ∧
      ∃ entry ∈ v.keys, ∃ rank, write.posting = entry.posting zh.staticrank v.sysno rank)
    (ins : ∀ entry ∈ insKeys.getD [], ∃ v ∈ versions, v.sysno = sysno ∧ entry ∈ v.keys)
    (del : ∀ entry ∈ delKeys.getD [], ∃ v ∈ versions, v.sysno = sysno ∧ entry ∈ v.keys) :
    ∀ write ∈ p', ∃ v ∈ versions, write.sysno = v.sysno ∧
      ∃ entry ∈ v.keys, ∃ rank, write.posting = entry.posting zh.staticrank v.sysno rank := by
  intro write mem
  rcases (flushKeys_spec flushed).2 write mem with mem | ⟨own, mem | mem⟩
  · exact block write mem
  · obtain ⟨entry, here, eq⟩ := mem_map.mp mem
    obtain ⟨v, there, rfl, has⟩ := del entry here
    exact ⟨v, there, own, entry, has, delRank, eq.symm⟩
  · obtain ⟨entry, here, eq⟩ := mem_map.mp mem
    obtain ⟨v, there, rfl, has⟩ := ins entry here
    exact ⟨v, there, own, entry, has, insRank, eq.symm⟩

theorem putRecord_sourced {sysno : Nat} {attr : RecordAttr}
    (sourced : Sourced zh reg versions)
    (own : ∀ entry ∈ reg.keys.entries, ∃ v ∈ versions, v.sysno = sysno ∧ entry ∈ v.keys) :
    Sourced zh (putRecord zh reg req sysno attr) versions where
  block := sourced.block
  store := by
    apply sourced.store.put
    intro entry mem
    dsimp only at mem
    split at mem
    · exact own entry mem
    · cases mem

theorem addRecord_sourced {matchStr : Option (List Byte)}
    {reg' : Register} {v : Written} (sourced : Sourced zh reg versions) (mem : v ∈ versions)
    (sysno : v.sysno = reg.records.indexLast)
    (keys : v.keys = (recordKeys zh reg req reg.records.indexLast).entries)
    (added : addRecord zh reg req matchStr = .ok reg') : Sourced zh reg' versions := by
  rw [addRecord] at added
  split at added
  · cases added
  · rename_i number records made
    have number_eq : number = reg.records.indexLast := by
      unfold Records.new at made
      split at made
      · cases made
        rfl
      · cases made
    subst number_eq
    have own : ∀ entry ∈ (recordKeys zh reg req reg.records.indexLast).entries,
        ∃ v ∈ versions, v.sysno = reg.records.indexLast ∧ entry ∈ v.keys :=
      fun entry here => ⟨v, mem, sysno, keys ▸ here⟩
    dsimp only at added
    split at added
    · cases added
    · rename_i keyBlock flushed
      cases added
      apply putRecord_sourced
      · refine ⟨flush_sourced flushed sourced.block own fun entry none => (by cases none), ?_⟩
        exact sourced.store.new zh.infoSize made fun _ entry none => (by cases none)
      · exact own

theorem updateRecord_sourced {sysno : Nat} {record : Record}
    {reg' : Register} (sourced : Sourced zh reg versions)
    (own : ∀ entry ∈ reg.keys.entries, ∃ v ∈ versions, v.sysno = sysno ∧ entry ∈ v.keys)
    (old : ∀ entry ∈ record.delKeys, ∃ v ∈ versions, v.sysno = sysno ∧ entry ∈ v.keys)
    (updated : updateRecord zh reg req sysno record = .ok reg') : Sourced zh reg' versions := by
  rw [updateRecord] at updated
  dsimp only at updated
  split at updated
  · cases updated
  · rename_i keyBlock flushed
    cases updated
    apply putRecord_sourced
    · exact ⟨flush_sourced flushed sourced.block own old, sourced.store⟩
    · exact own

theorem deleteRecord_sourced {sysno : Nat} {record : Record}
    {matchStr : Option (List Byte)} {reg' : Register} (sourced : Sourced zh reg versions)
    (old : ∀ entry ∈ record.delKeys, ∃ v ∈ versions, v.sysno = sysno ∧ entry ∈ v.keys)
    (deleted : deleteRecord zh reg sysno record matchStr = .ok reg') :
    Sourced zh reg' versions := by
  rw [deleteRecord] at deleted
  dsimp only at deleted
  split at deleted
  · cases deleted
  · rename_i keyBlock flushed
    have block := flush_sourced flushed sourced.block (fun entry none => (by cases none)) old
    split at deleted
    · cases deleted
      exact ⟨block, sourced.store⟩
    · cases deleted
      exact ⟨block, sourced.store.del zh.infoSize old⟩

theorem step_sourced (sourced : Sourced zh w.reg versions)
    (step : w.step zh req = .ok w') :
    Sourced zh w'.reg (versions ++ written zh w.reg req) := by
  have grown : Sourced zh w.reg (versions ++ written zh w.reg req) :=
    sourced.mono fun v mem => mem_append_left _ mem
  obtain ⟨⟨res, reg'⟩, out_eq, rfl⟩ := map_ok step
  rw [extractRecordStream] at out_eq
  dsimp only
  split at out_eq
  · cases out_eq
    exact ⟨grown.block, grown.store⟩
  · rename_i matchStr planned
    obtain ⟨reg'', added, same⟩ := map_ok out_eq
    cases same
    apply addRecord_sourced grown (v := ⟨w.reg.records.indexLast, ownId req,
      (recordKeys zh w.reg req w.reg.records.indexLast).entries⟩) ?_ rfl rfl added
    apply mem_append_right
    rw [written, accepted, planned]
    exact mem_singleton.mpr rfl
  · rename_i sysno matchStr action planned
    obtain ⟨reg'', changed, same⟩ := map_ok out_eq
    cases same
    obtain ⟨every, found⟩ := grown.store.get zh.infoSize sysno
    rw [changeRecord] at changed
    split at changed
    · cases changed
    · rename_i record records get_eq
      rw [get_eq] at every found
      have old := found record rfl
      have middle : Sourced zh { w.reg with
          records
          keys := recordKeys zh w.reg req sysno
          zei := w.reg.zei.recordBytesIncrement (castInt (-record.initAttr.recordSize)) }
          (versions ++ written zh w.reg req) := ⟨grown.block, every⟩
      dsimp only at changed
      split at changed
      · exact deleteRecord_sourced middle old changed
      · rename_i is_update
        have version : ⟨sysno, ownId req, (recordKeys zh w.reg req sysno).entries⟩ ∈
            written zh w.reg req := by
          rw [written, accepted, planned]
          dsimp only
          rw [get_eq, Option.bind_some, if_neg is_update]
          exact mem_singleton.mpr rfl
        exact updateRecord_sourced middle
          (fun entry mem => ⟨_, mem_append_right _ version, rfl, mem⟩) old changed

theorem written_spec {v : Written} (mem : v ∈ written zh reg req) :
    BringsVersion zh reg req ∧ v.ownId = ownId req ∧
      v.keys = (recordKeys zh reg req v.sysno).entries ∧ ∃ e, req.stream = some e := by
  unfold written accepted at mem
  cases planned : plan zh reg req with
  | stop res =>
    rw [planned] at mem
    cases mem
  | add matchStr =>
    rw [planned] at mem
    obtain rfl := mem_singleton.mp mem
    exact ⟨.inl ⟨matchStr, planned⟩, rfl, rfl, stream_of_plan rfl (.inl ⟨matchStr, planned⟩)⟩
  | change sysno matchStr action =>
    rw [planned] at mem
    dsimp only at mem
    cases get_eq : (reg.records.get zh.infoSize sysno).1 with
    | none =>
      rw [get_eq] at mem
      cases mem
    | some record =>
      rw [get_eq, Option.bind_some] at mem
      by_cases is_delete : action = .delete ∨ action = .aDelete
      · rw [if_pos is_delete] at mem
        by_cases none : record.delKeys = []
        · rw [if_pos none] at mem
          cases mem
        · rw [if_neg none] at mem
          cases mem
      · rw [if_neg is_delete] at mem
        obtain rfl := mem_singleton.mp mem
        exact ⟨.inr ⟨sysno, matchStr, action, planned, is_delete⟩, rfl, rfl,
          stream_of_plan rfl (.inr ⟨sysno, matchStr, action, planned, is_delete⟩)⟩

/-- A request that brings a version and goes through has written it. -/
theorem written_ne_nil (brings : BringsVersion zh w.reg req) (step : w.step zh req = .ok w') :
    ∃ v, v ∈ written zh w.reg req := by
  unfold written accepted
  rcases brings with ⟨matchStr, planned⟩ | ⟨sysno, matchStr, action, planned, is_update⟩
  · rw [planned]
    exact ⟨_, mem_singleton.mpr rfl⟩
  · obtain ⟨⟨res, reg'⟩, out_eq, rfl⟩ := map_ok step
    rw [extractRecordStream, planned] at out_eq
    obtain ⟨reg'', changed, -⟩ := map_ok out_eq
    rw [changeRecord] at changed
    rw [planned]
    dsimp only
    split at changed
    · cases changed
    · rename_i record records get_eq
      rw [get_eq, Option.bind_some, if_neg is_update]
      exact ⟨_, mem_singleton.mpr rfl⟩

theorem sourced_of_history {allowed : World → Request → Prop}
    (run : History zh allowed w versions) : Sourced zh w.reg versions := by
  induction run with
  | empty indexLast compressionChunkSize pos =>
    refine ⟨fun write mem => absurd mem not_mem_nil,
      fun e mem => absurd mem not_mem_nil, fun sysno record here => ?_⟩
    cases here
  | request req before meets step ih => exact step_sourced ih step
  | reopen before ih => exact ⟨ih.block, ih.store.cacheFlush 0⟩

/-- When its version was written, every record carried its own id. -/
theorem buffer_of_history
    (run : History zh (KeepsOwnId zh) w versions) :
    ∀ v ∈ versions, (∀ entry ∈ v.keys, entry.recordId = v.ownId) ∧
      allMatchesEntry zh v.ownId v.sysno ∈ v.keys := by
  induction run with
  | empty indexLast compressionChunkSize pos => exact fun v mem => absurd mem not_mem_nil
  | reopen before ih => exact ih
  | @request w w' versions req before meets step ih =>
    intro v mem
    rcases mem_append.mp mem with mem | mem
    · exact ih v mem
    · obtain ⟨brings, id, keys, e, stream⟩ := written_spec mem
      have own := (recordKeys_own_iff zh stream v.sysno).mpr (meets brings)
      have all := (mem_recordKeys zh stream v.sysno
        (allMatchesEntry zh (streamKeys w.reg req).customRecordId v.sysno)).mpr (.inr rfl)
      have same := own _ all
      rw [allMatchesEntry_recordId] at same
      rw [id, keys]
      rw [same] at all
      exact ⟨own, all⟩

theorem posting_recordId (staticRankEnable : Bool) (entry : RecKey) (sysno : Nat) (rank : Int) :
    (entry.posting staticRankEnable sysno rank).recordId staticRankEnable =
      some (if entry.recordId ≠ 0 then entry.recordId else sysno) := by
  cases staticRankEnable with
  | false => rfl
  | true => rfl

/-- In every run whose requests meet the condition, the always-matches entry and all postings of a
record carry its own id; and after a request that does not, they do not. -/
theorem own_record_ids (zh : ZebraHandle) :
    (∀ w versions, History zh (KeepsOwnId zh) w versions → Own zh w versions) ∧
    ∀ w versions req w', History zh (fun _ _ => True) w versions → ¬ KeepsOwnId zh w req →
      w.step zh req = .ok w' → ¬ Own zh w' (versions ++ written zh w.reg req) := by
  refine ⟨fun w versions run => ?_, fun w versions req w' run leaks step own => leaks ?_⟩
  · have buffer := buffer_of_history run
    refine ⟨fun v mem => (buffer v mem).1, fun v mem => (buffer v mem).2, fun write mem => ?_⟩
    obtain ⟨v, there, sysno, entry, has, rank, eq⟩ := (sourced_of_history run).block write mem
    refine ⟨v, there, sysno, ?_⟩
    rw [eq, posting_recordId, (buffer v there).1 entry has]
  · intro brings
    obtain ⟨v, mem⟩ := written_ne_nil brings step
    obtain ⟨-, id, keys, e, stream⟩ := written_spec mem
    apply (recordKeys_own_iff zh stream v.sysno).mp
    rw [← id, ← keys]
    exact own.buffer v (mem_append_right _ mem)

/-- Insert a record with one key, which declares the id unless it is 0. -/
def insertWithId (id : Int) : Request where
  action := .update
  sysno := some 0
  matchCriteria := []
  fname := []
  stream := some {
    result := .ok
    keys := [{ str := [97], key := [2, id, 0, 1] }]
    staticrank := 0
    matchCriteria := []
    action := .update
    startOffset := 0
    endOffset := 10
    storeData := none }
  streamless := nofun

theorem own_record_ids_one : ∃ w versions, History plainHandle (KeepsOwnId plainHandle) w versions ∧
    versions.map Written.ownId = [0, 7, 8] ∧ Own plainHandle w versions := by
  have start : History plainHandle (KeepsOwnId plainHandle) (World.empty 1 0) [] :=
    .empty 1 0 (by decide)
  have without := History.request (insertWithId 0) start (fun _ => ⟨by decide, by decide⟩) rfl
  have one := History.request (insertWithId 7) without (fun _ => ⟨by decide, by decide⟩) rfl
  have updated := History.request { insertWithId 8 with sysno := some 1 } one
    (fun _ => ⟨by decide, by decide⟩) rfl
  exact ⟨_, _, updated.reopen, rfl, (own_record_ids plainHandle).1 _ _ updated.reopen⟩

/-- The second record declares no id and gets that of the first. -/
theorem not_own_record_ids : ¬ ∀ zh w versions, History zh (fun _ _ => True) w versions →
    Own zh w versions := by
  intro own
  have start : History plainHandle (fun _ _ => True) (World.empty 1 0) [] := .empty 1 0 (by decide)
  have first := History.request (insertWithId 7) start trivial rfl
  have second := History.request (insertWithId 0) first trivial rfl
  have all := (own plainHandle _ _ second).allMatches
  revert all
  decide

end Zebra.Update
