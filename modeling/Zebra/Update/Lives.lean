import Mathlib.Data.Finset.Basic
import Zebra.Update.Extract

/-!
# Lives of records

What the accepted requests alone say about the records: which are live, with which version, and
under which match string each was inserted.  The register follows them.
-/

namespace Zebra.Update

open Function Option Finset

/-- A version of a record: its keys, its rank and its size. -/
structure Version where
  keys : List RecKey
  rank : Int
  size : Int

structure Lives where
  live : Finset Nat
  version : Nat → Version
  /-- The record last inserted under a match string and not deleted since. -/
  matched : List Byte → Option Nat

/-- What an accepted request does. -/
inductive Change where
  | inserted (sysno : Nat) (matchStr : Option (List Byte)) (version : Version)
  | updated (sysno : Nat) (version : Version)
  | deleted (sysno : Nat)

def Lives.apply (lives : Lives) : Change → Lives
  | .inserted sysno matchStr version =>
    { live := insert sysno lives.live
      version := Function.update lives.version sysno version
      matched := matchStr.elim lives.matched fun matchStr =>
        Function.update lives.matched matchStr (some sysno) }
  | .updated sysno version =>
    { lives with version := Function.update lives.version sysno version }
  | .deleted sysno =>
    { lives with
      live := lives.live.erase sysno
      matched := fun matchStr =>
        if lives.matched matchStr = some sysno then none else lives.matched matchStr }

def requestVersion (zh : ZebraHandle) (reg : Register) (req : Request) (sysno : Nat)
    (rank : Int) : Version where
  keys := (recordKeys zh reg req sysno).entries
  rank
  size := req.stream.elim 0 finalSize

def insertedRank (req : Request) : Int := if extractedRank req < 0 then 0 else extractedRank req

/-- The change that a request is accepted for, if any. -/
def accepted (zh : ZebraHandle) (reg : Register) (req : Request) : Option Change :=
  match plan zh reg req with
  | .stop _ => none
  | .add matchStr =>
    let sysno := reg.records.indexLast
    some (.inserted sysno matchStr (requestVersion zh reg req sysno (insertedRank req)))
  | .change sysno _ action =>
    (reg.records.get zh.infoSize sysno).1.bind fun record =>
      if action = .delete ∨ action = .aDelete then
        if record.delKeys = [] then none else some (.deleted sysno)
      else some (.updated sysno (requestVersion zh reg req sysno (extractedRank req)))

/-- The register, and the records that live. -/
structure World where
  reg : Register
  lives : Lives

def World.empty (indexLast compressionChunkSize : Nat) : World where
  reg :=
    { records :=
        { indexLast, noRecords := 0, compressionChunkSize, cache := [], disk := fun _ => none }
      matchDict := fun _ => none
      keys := ⟨[], 0⟩
      zei := ⟨0, 0, fun _ => 0, fun _ => 0⟩
      keyBlock := [] }
  lives := ⟨∅, fun _ => ⟨[], 0, 0⟩, fun _ => none⟩

def World.step (zh : ZebraHandle) (w : World) (req : Request) : Except Register World :=
  (extractRecordStream zh w.reg req).map fun out =>
    { reg := out.2, lives := (accepted zh w.reg req).elim w.lives w.lives.apply }

def World.reopen (w : World) : World :=
  { w with reg := { w.reg with records := w.reg.records.cacheFlush 0, keys := ⟨[], 0⟩ } }

/-- The worlds that are reached from an empty database when every request meets `allowed`. -/
inductive Reaches (zh : ZebraHandle) (allowed : World → Request → Prop) : World → Prop where
  | empty (indexLast compressionChunkSize : Nat) (pos : 0 < indexLast) :
      Reaches zh allowed (World.empty indexLast compressionChunkSize)
  | request {w w' : World} (req : Request) (before : Reaches zh allowed w)
      (meets : allowed w req) (step : w.step zh req = .ok w') : Reaches zh allowed w'
  | reopen {w : World} (before : Reaches zh allowed w) : Reaches zh allowed w.reopen

def Version.record (zh : ZebraHandle) (version : Version) : Record where
  attr := some ⟨version.size, version.rank⟩
  delKeys := if zh.storeKeys then version.keys else []

def Lives.records (zh : ZebraHandle) (lives : Lives) (sysno : Nat) : Option Record :=
  if sysno ∈ lives.live then some ((lives.version sysno).record zh) else none

variable {zh : ZebraHandle} {reg reg' : Register} {req : Request} {sysno : Nat}
  {records : Nat → Option Record} {matchStr : Option (List Byte)} {action : Action}

theorem stream_of_plan {e : Option Extraction} (e_eq : req.stream = e)
    (needs : (∃ m, plan zh reg req = .add m) ∨
      ∃ s m a, plan zh reg req = .change s m a ∧ ¬(a = .delete ∨ a = .aDelete)) :
    ∃ extraction, e = some extraction := by
  cases e with
  | some extraction => exact ⟨extraction, rfl⟩
  | none =>
    exfalso
    obtain ⟨is_some, action⟩ := req.streamless e_eq
    obtain ⟨s, sysno_eq⟩ := isSome_iff_exists.mp is_some
    have final : finalAction req = req.action := by
      rcases action with action | action <;> simp [finalAction, action]
    rw [plan, e_eq] at needs
    simp only [elim_none, matchStr, sysno_eq, isSome_some, if_true,
      elim_some, planFor, getD_some, final] at needs
    rcases action with action | action <;> rw [action] at needs <;>
      by_cases writes : zh.flagRw <;> by_cases zero : s = 0 <;> simp [writes, zero] at needs

variable {e : Extraction}

/-- The tail of the function on a record that the store keeps. -/
theorem putRecord_spec (zh : ZebraHandle) (reg : Register) (attr : RecordAttr)
    {old : Record}
    (stream : req.stream = some e) (keeps : reg.records.Keeps records)
    (is_live : records sysno = some old) :
    (putRecord zh reg req sysno attr).matchDict = reg.matchDict ∧
      (putRecord zh reg req sysno attr).keyBlock = reg.keyBlock ∧
      (putRecord zh reg req sysno attr).zei = reg.zei.recordBytesIncrement (extent e) ∧
      (putRecord zh reg req sysno attr).keys.customRecordId = reg.keys.customRecordId ∧
      (putRecord zh reg req sysno attr).records.Keeps (update records sysno
        (some (Version.record zh ⟨reg.keys.entries, attr.staticrank, finalSize e⟩))) := by
  have record_eq : ({
      attr := some { attr with recordSize := finalSize e }
      delKeys := if reg.keys.entries ≠ [] ∧ zh.storeKeys then reg.keys.entries else [] } : Record) =
      Version.record zh ⟨reg.keys.entries, attr.staticrank, finalSize e⟩ := by
    rw [Version.record]
    cases zh.storeKeys <;> by_cases none_left : reg.keys.entries = [] <;> simp [none_left]
  refine ⟨rfl, rfl, ?_, ?_, ?_⟩
  · simp [putRecord, stream]
  · simp only [putRecord]
    split <;> rfl
  · simp only [putRecord, stream, elim_some]
    rw [record_eq]
    exact (Records.put_spec keeps is_live).1

theorem addRecord_spec (stream : req.stream = some e)
    (keeps : reg.records.Keeps records) (added : addRecord zh reg req matchStr = .ok reg') :
    let sysno := reg.records.indexLast
    let version := requestVersion zh reg req sysno (insertedRank req)
    let flushed := flushRecordKeys2 zh.staticrank reg.zei reg.keyBlock sysno
      (some version.keys) version.rank none 0
    records sysno = none ∧
      flushed.2 = .ok reg'.keyBlock ∧
      reg'.zei = flushed.1.recordBytesIncrement (extent e) ∧
      reg'.matchDict = (matchStr.elim reg.matchDict fun matchStr =>
        update reg.matchDict matchStr (some sysno)) ∧
      reg'.keys.customRecordId = (recordKeys zh reg req sysno).customRecordId ∧
      reg'.records.Keeps (update records sysno (some (version.record zh))) := by
  intro sysno version flushed
  have in_range : reg.records.indexLast ≤ usualRange := by
    by_contra above
    simp only [addRecord, Records.new, if_neg above] at added
    cases added
  obtain ⟨unused, records', new_eq, keeps', -⟩ :=
    @Records.new_spec _ zh.infoSize _ _ Record.blank keeps in_range
  rw [addRecord, new_eq] at added
  dsimp only at added
  split at added
  · cases added
  · rename_i keyBlock block_eq
    cases added
    obtain ⟨matchDict, block, zei, custom, kept⟩ := putRecord_spec zh
      { records := records'
        matchDict := matchStr.elim reg.matchDict fun matchStr =>
          update reg.matchDict matchStr (some sysno)
        keys := recordKeys zh reg req sysno
        zei := flushed.1
        keyBlock }
      { Record.blank.initAttr with staticrank := insertedRank req }
      stream keeps' (update_self _ _ _)
    have version_eq : version =
        ⟨(recordKeys zh reg req sysno).entries, insertedRank req, finalSize e⟩ := by
      simp only [version, requestVersion, stream, elim_some]
    rw [update_idem] at kept
    refine ⟨unused, block_eq.trans (congrArg Except.ok block.symm), zei, matchDict, custom, ?_⟩
    rw [version_eq]
    exact kept

theorem updateRecord_spec {record : Record} (stream : req.stream = some e)
    (keeps : reg.records.Keeps records) (is_live : records sysno = some record)
    (updated : updateRecord zh reg req sysno record = .ok reg') :
    let flushed := flushRecordKeys2 zh.staticrank reg.zei reg.keyBlock sysno
      (some reg.keys.entries) (extractedRank req) (some record.delKeys) record.initAttr.staticrank
    flushed.2 = .ok reg'.keyBlock ∧
      reg'.zei = flushed.1.recordBytesIncrement (extent e) ∧
      reg'.matchDict = reg.matchDict ∧
      reg'.keys.customRecordId = reg.keys.customRecordId ∧
      reg'.records.Keeps (update records sysno
        (some (Version.record zh ⟨reg.keys.entries, extractedRank req, finalSize e⟩))) := by
  intro flushed
  rw [updateRecord] at updated
  dsimp only at updated
  split at updated
  · cases updated
  · rename_i keyBlock block_eq
    cases updated
    obtain ⟨matchDict, block, zei, custom, kept⟩ := putRecord_spec zh
      { reg with zei := flushed.1, keyBlock }
      { record.initAttr with staticrank := extractedRank req } stream keeps is_live
    exact ⟨block_eq.trans (congrArg Except.ok block.symm), zei, matchDict, custom, kept⟩

theorem deleteRecord_spec {record : Record} (keeps : reg.records.Keeps records)
    (is_live : records sysno = some record) (stored : record.delKeys ≠ [])
    (deleted : deleteRecord zh reg sysno record matchStr = .ok reg') :
    let rank := record.initAttr.staticrank
    let flushed := flushRecordKeys2 zh.staticrank reg.zei reg.keyBlock sysno none rank
      (some record.delKeys) rank
    flushed.2 = .ok reg'.keyBlock ∧
      reg'.zei = flushed.1 ∧
      reg'.matchDict = (matchStr.elim reg.matchDict fun matchStr =>
        update reg.matchDict matchStr none) ∧
      reg'.keys.customRecordId = reg.keys.customRecordId ∧
      reg'.records.Keeps (update records sysno none) := by
  intro rank flushed
  rw [deleteRecord] at deleted
  dsimp only at deleted
  split at deleted
  · cases deleted
  · rename_i keyBlock block_eq
    rw [if_neg stored] at deleted
    cases deleted
    exact ⟨block_eq, rfl, rfl, rfl, (Records.del_spec keeps is_live).1⟩

/-- The register follows the lives. -/
structure Tracks (zh : ZebraHandle) (w : World) : Prop where
  keeps : w.reg.records.Keeps (w.lives.records zh)
  keys_ne : ∀ sysno ∈ w.lives.live, (w.lives.version sysno).keys ≠ []
  nodup : ∀ sysno ∈ w.lives.live, (w.lives.version sysno).keys.Nodup

/-- A request that finds a record finds a live one, with its keys stored. -/
def FindsLive (zh : ZebraHandle) (w : World) (req : Request) : Prop :=
  ∀ sysno matchStr action, plan zh w.reg req = .change sysno matchStr action →
    sysno ∈ w.lives.live ∧ zh.storeKeys

/-- What a request that goes through did. -/
inductive Effect (zh : ZebraHandle) (w : World) (req : Request) (w' : World) : Prop where
  | idle (lives : w'.lives = w.lives) (matchDict : w'.reg.matchDict = w.reg.matchDict)
      (zei : w'.reg.zei = w.reg.zei) (keyBlock : w'.reg.keyBlock = w.reg.keyBlock)
      (custom : w'.reg.keys.customRecordId = (streamKeys w.reg req).customRecordId)
  | added (sysno : Nat) (matchStr : Option (List Byte)) (version : Version) (e : Extraction)
      (planned : plan zh w.reg req = .add matchStr) (stream : req.stream = some e)
      (fresh : sysno ∉ w.lives.live) (pos : 0 < sysno)
      (sysno_eq : sysno = w.reg.records.indexLast)
      (version_eq : version = requestVersion zh w.reg req sysno (insertedRank req))
      (lives : w'.lives = w.lives.apply (.inserted sysno matchStr version))
      (keyBlock : (flushRecordKeys2 zh.staticrank w.reg.zei w.reg.keyBlock sysno
        (some version.keys) version.rank none 0).2 = .ok w'.reg.keyBlock)
      (zei : w'.reg.zei = (flushRecordKeys2 zh.staticrank w.reg.zei w.reg.keyBlock sysno
        (some version.keys) version.rank none 0).1.recordBytesIncrement (extent e))
      (matchDict : w'.reg.matchDict = matchStr.elim w.reg.matchDict fun matchStr =>
        Function.update w.reg.matchDict matchStr (some sysno))
      (custom : w'.reg.keys.customRecordId = (recordKeys zh w.reg req sysno).customRecordId)
  | updated (sysno : Nat) (matchStr : Option (List Byte)) (action : Action) (version : Version)
      (e : Extraction) (planned : plan zh w.reg req = .change sysno matchStr action)
      (is_update : ¬(action = .delete ∨ action = .aDelete))
      (stream : req.stream = some e) (is_live : sysno ∈ w.lives.live)
      (version_eq : version = requestVersion zh w.reg req sysno (extractedRank req))
      (lives : w'.lives = w.lives.apply (.updated sysno version))
      (keyBlock : (flushRecordKeys2 zh.staticrank
        (w.reg.zei.recordBytesIncrement (castInt (-(w.lives.version sysno).size)))
        w.reg.keyBlock sysno (some version.keys) version.rank
        (some (w.lives.version sysno).keys) (w.lives.version sysno).rank).2 = .ok w'.reg.keyBlock)
      (zei : w'.reg.zei = (flushRecordKeys2 zh.staticrank
        (w.reg.zei.recordBytesIncrement (castInt (-(w.lives.version sysno).size)))
        w.reg.keyBlock sysno (some version.keys) version.rank
        (some (w.lives.version sysno).keys)
        (w.lives.version sysno).rank).1.recordBytesIncrement (extent e))
      (matchDict : w'.reg.matchDict = w.reg.matchDict)
      (custom : w'.reg.keys.customRecordId = (recordKeys zh w.reg req sysno).customRecordId)
  | deleted (sysno : Nat) (matchStr : Option (List Byte)) (action : Action)
      (planned : plan zh w.reg req = .change sysno matchStr action)
      (is_delete : action = .delete ∨ action = .aDelete) (is_live : sysno ∈ w.lives.live)
      (lives : w'.lives = w.lives.apply (.deleted sysno))
      (keyBlock : (flushRecordKeys2 zh.staticrank
        (w.reg.zei.recordBytesIncrement (castInt (-(w.lives.version sysno).size)))
        w.reg.keyBlock sysno none (w.lives.version sysno).rank
        (some (w.lives.version sysno).keys) (w.lives.version sysno).rank).2 = .ok w'.reg.keyBlock)
      (zei : w'.reg.zei = (flushRecordKeys2 zh.staticrank
        (w.reg.zei.recordBytesIncrement (castInt (-(w.lives.version sysno).size)))
        w.reg.keyBlock sysno none (w.lives.version sysno).rank
        (some (w.lives.version sysno).keys) (w.lives.version sysno).rank).1)
      (matchDict : w'.reg.matchDict = matchStr.elim w.reg.matchDict fun matchStr =>
        Function.update w.reg.matchDict matchStr none)
      (custom : w'.reg.keys.customRecordId = (recordKeys zh w.reg req sysno).customRecordId)

theorem Lives.records_inserted (lives : Lives) (version : Version) :
    (lives.apply (.inserted sysno matchStr version)).records zh =
      update (lives.records zh) sysno (some (version.record zh)) := by
  funext other
  by_cases same : other = sysno
  · subst same
    simp [Lives.records, Lives.apply]
  · simp [Lives.records, Lives.apply, same]

theorem Lives.records_updated (lives : Lives) (version : Version) (is_live : sysno ∈ lives.live) :
    (lives.apply (.updated sysno version)).records zh =
      update (lives.records zh) sysno (some (version.record zh)) := by
  funext other
  by_cases same : other = sysno
  · subst same
    simp [Lives.records, Lives.apply, is_live]
  · simp [Lives.records, Lives.apply, same]

theorem Lives.records_deleted (lives : Lives) :
    (lives.apply (.deleted sysno)).records zh =
      update (lives.records zh) sysno none := by
  funext other
  by_cases same : other = sysno
  · subst same
    simp [Lives.records, Lives.apply]
  · simp [Lives.records, Lives.apply, same]

theorem recordKeys_nodup (zh : ZebraHandle) (reg : Register) (req : Request) (sysno : Nat) :
    (recordKeys zh reg req sysno).entries.Nodup := by
  have streamed : (streamKeys reg req).entries.Nodup := RecKeys.writeAll_nodup List.nodup_nil _
  unfold recordKeys
  split
  · exact RecKeys.write_nodup streamed _
  · exact streamed

theorem recordKeys_ne_nil (stream : req.stream = some e) :
    (recordKeys zh reg req sysno).entries ≠ [] := by
  rw [recordKeys, stream, isSome_some, if_pos rfl]
  exact RecKeys.write_ne_nil _ _

variable {w w' : World}

/-- The register goes on following the lives when one record gets a version. -/
theorem tracks_version {rank : Int} (tracks : Tracks zh w)
    (stream : req.stream = some e)
    (live_sub : ∀ other ∈ w'.lives.live, other = sysno ∨ other ∈ w.lives.live)
    (version_eq : w'.lives.version =
      update w.lives.version sysno (requestVersion zh reg req sysno rank))
    (keeps : w'.reg.records.Keeps (w'.lives.records zh)) : Tracks zh w' where
  keeps := keeps
  keys_ne := by
    intro other mem
    rw [version_eq]
    by_cases same : other = sysno
    · subst same
      rw [update_self]
      exact recordKeys_ne_nil stream
    · rw [update_of_ne same]
      exact tracks.keys_ne other ((live_sub other mem).resolve_left same)
  nodup := by
    intro other mem
    rw [version_eq]
    by_cases same : other = sysno
    · subst same
      rw [update_self]
      exact recordKeys_nodup zh reg req other
    · rw [update_of_ne same]
      exact tracks.nodup other ((live_sub other mem).resolve_left same)

theorem get_live (tracks : Tracks zh w) (is_live : sysno ∈ w.lives.live) :
    ∃ records', w.reg.records.get zh.infoSize sysno =
        (some ((w.lives.version sysno).record zh), records') ∧
      records'.Keeps (w.lives.records zh) := by
  have record_eq : w.lives.records zh sysno = some ((w.lives.version sysno).record zh) :=
    if_pos is_live
  obtain ⟨records', get_eq, keeps, -⟩ := Records.get_spec tracks.keeps record_eq
  exact ⟨records', get_eq, keeps⟩

theorem map_ok {ε α β : Type} {f : α → β} {x : Except ε α} {y : β} (mapped : x.map f = .ok y) :
    ∃ a, x = .ok a ∧ f a = y := by
  cases x with
  | error fault => cases mapped
  | ok a => exact ⟨a, rfl, Except.ok.inj mapped⟩

/-- The effect of a request that changes a live record. -/
theorem change_effect (tracks : Tracks zh w) (is_live : sysno ∈ w.lives.live)
    (stores : zh.storeKeys = true)
    (planned : plan zh w.reg req = .change sysno matchStr action)
    (step : w.step zh req = .ok w') : Effect zh w req w' ∧ Tracks zh w' := by
  obtain ⟨records', get_eq, keeps⟩ := get_live tracks is_live
  have record_eq : w.lives.records zh sysno = some ((w.lives.version sysno).record zh) :=
    if_pos is_live
  have delKeys_eq : ((w.lives.version sysno).record zh).delKeys = (w.lives.version sysno).keys := by
    rw [Version.record, stores, if_pos rfl]
  rw [World.step, extractRecordStream, accepted, planned] at step
  dsimp only at step
  rw [changeRecord, get_eq] at step
  dsimp only at step
  by_cases is_delete : action = .delete ∨ action = .aDelete
  · have stored := tracks.keys_ne sysno is_live
    rw [← delKeys_eq] at stored
    rw [if_pos is_delete, bind_some, if_pos is_delete, if_neg stored,
      elim_some] at step
    obtain ⟨⟨res, reg'⟩, out_eq, rfl⟩ := map_ok step
    obtain ⟨reg'', branch, same⟩ := map_ok out_eq
    cases same
    obtain ⟨keyBlock, zei, matchDict, custom, kept⟩ :=
      deleteRecord_spec keeps record_eq stored branch
    rw [delKeys_eq] at keyBlock zei
    refine ⟨.deleted sysno matchStr action planned is_delete is_live rfl keyBlock zei matchDict
      custom, ?_, fun other mem => ?_, fun other mem => ?_⟩
    · rw [Lives.records_deleted]
      exact kept
    · exact tracks.keys_ne other (mem_of_mem_erase mem)
    · exact tracks.nodup other (mem_of_mem_erase mem)
  · obtain ⟨e, stream⟩ := stream_of_plan rfl (.inr ⟨sysno, matchStr, action, planned, is_delete⟩)
    rw [if_neg is_delete, bind_some, if_neg is_delete, elim_some] at step
    obtain ⟨⟨res, reg'⟩, out_eq, rfl⟩ := map_ok step
    obtain ⟨reg'', branch, same⟩ := map_ok out_eq
    cases same
    obtain ⟨keyBlock, zei, matchDict, custom, kept⟩ :=
      updateRecord_spec stream keeps record_eq branch
    rw [delKeys_eq] at keyBlock zei
    refine ⟨.updated sysno matchStr action _ e planned is_delete stream is_live rfl rfl keyBlock zei
        matchDict custom,
      tracks_version tracks stream (fun other mem => .inr mem) rfl ?_⟩
    rw [Lives.records_updated _ _ is_live, requestVersion, stream]
    exact kept

theorem add_effect (tracks : Tracks zh w)
    (planned : plan zh w.reg req = .add matchStr)
    (step : w.step zh req = .ok w') : Effect zh w req w' ∧ Tracks zh w' := by
  obtain ⟨e, stream⟩ := stream_of_plan rfl (.inl ⟨matchStr, planned⟩)
  rw [World.step, extractRecordStream, accepted, planned] at step
  dsimp only at step
  obtain ⟨⟨res, reg'⟩, out_eq, rfl⟩ := map_ok step
  obtain ⟨reg'', branch, same⟩ := map_ok out_eq
  cases same
  obtain ⟨unused, keyBlock, zei, matchDict, custom, kept⟩ :=
    addRecord_spec stream tracks.keeps branch
  have fresh : w.reg.records.indexLast ∉ w.lives.live := by
    intro mem
    rw [Lives.records, if_pos mem] at unused
    cases unused
  refine ⟨.added w.reg.records.indexLast matchStr _ e planned stream fresh
    tracks.keeps.indexLast_pos rfl rfl rfl keyBlock zei matchDict custom,
    tracks_version tracks stream (fun other mem => mem_insert.mp mem) rfl ?_⟩
  rw [elim_some, Lives.records_inserted]
  exact kept

/-- What a request that goes through did, when what it finds is live. -/
theorem step_effect (tracks : Tracks zh w) (finds : FindsLive zh w req)
    (step : w.step zh req = .ok w') : Effect zh w req w' ∧ Tracks zh w' := by
  cases planned : plan zh w.reg req with
  | stop res =>
    rw [World.step, extractRecordStream, accepted, planned] at step
    cases step
    exact ⟨.idle rfl rfl rfl rfl rfl, tracks.keeps, tracks.keys_ne, tracks.nodup⟩
  | add matchStr => exact add_effect tracks planned step
  | change sysno matchStr action =>
    obtain ⟨is_live, stores⟩ := finds sysno matchStr action planned
    exact change_effect tracks is_live stores planned step

theorem tracks_empty (zh : ZebraHandle) (indexLast compressionChunkSize : Nat)
    (pos : 0 < indexLast) : Tracks zh (World.empty indexLast compressionChunkSize) where
  keeps :=
    { nodup := List.nodup_nil
      held := fun sysno record is_live => by simp [Lives.records, World.empty] at is_live
      below := fun sysno record is_live => by simp [Lives.records, World.empty] at is_live
      cached_below := fun e mem => absurd mem List.not_mem_nil
      indexLast_pos := pos }
  keys_ne := fun sysno mem => absurd mem (notMem_empty sysno)
  nodup := fun sysno mem => absurd mem (notMem_empty sysno)

theorem tracks_reopen (tracks : Tracks zh w) : Tracks zh w.reopen :=
  ⟨Records.keeps_cacheFlush tracks.keeps 0, tracks.keys_ne, tracks.nodup⟩

theorem Reaches.induct {allowed : World → Request → Prop} {invariant : World → Prop}
    (finds : ∀ w req, Tracks zh w → invariant w → allowed w req → FindsLive zh w req)
    (empty : ∀ indexLast compressionChunkSize, 0 < indexLast →
      invariant (World.empty indexLast compressionChunkSize))
    (request : ∀ w req w', Tracks zh w → invariant w → allowed w req → Effect zh w req w' →
      Tracks zh w' → invariant w')
    (reopen : ∀ w, Tracks zh w → invariant w → invariant w.reopen)
    (run : Reaches zh allowed w) : Tracks zh w ∧ invariant w := by
  induction run with
  | empty indexLast compressionChunkSize pos =>
    exact ⟨tracks_empty zh indexLast compressionChunkSize pos, empty _ _ pos⟩
  | request req before meets step induction =>
    obtain ⟨tracks, holds⟩ := induction
    obtain ⟨effect, tracks'⟩ := step_effect tracks (finds _ req tracks holds meets) step
    exact ⟨tracks', request _ req _ tracks holds meets effect tracks'⟩
  | reopen before induction =>
    exact ⟨tracks_reopen induction.1, reopen _ induction.1 induction.2⟩

/-- A handle that writes, with the default settings of a database. -/
def plainHandle : ZebraHandle where
  flagRw := true
  storeKeys := true
  staticrank := false
  segmentIndexing := false
  allRecordsOrd := 1
  matchFromSpec := none
  infoSize := fun _ => 0

end Zebra.Update
