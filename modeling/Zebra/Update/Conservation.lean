import Zebra.Update.Lives

/-!
# Postings over the life of records

Every key that is written is a key of the last version of a live record, less what is deleted
again: the balance of a posting is one while its record has it and zero otherwise.
-/

namespace Zebra.Update

open List Function

variable {zh : ZebraHandle} {reg : Register} {req : Request} {w w' : World} {sysno : Nat}

/-- Inserts less deletes are one for the postings of the live records and zero for all others. -/
def Conserved (zh : ZebraHandle) (w : World) : Prop :=
  ∀ sysno posting, w.reg.keyBlock.net sysno posting =
    if sysno ∈ w.lives.live ∧ posting ∈ (w.lives.version sysno).keys.map
      (RecKey.posting zh.staticrank sysno (w.lives.version sysno).rank) then 1 else 0

/-- No key that was written has a negative component. -/
def NonNegative (w : World) : Prop :=
  ∀ write ∈ w.reg.keyBlock, ∀ component ∈ write.posting.key, 0 ≤ component

def Separate (sysno : Nat) (keys : List RecKey) : Prop :=
  ∀ a ∈ keys, ∀ b ∈ keys, a.posting false sysno 0 = b.posting false sysno 0 → a = b

/-- What a request has to meet. -/
structure Regular (zh : ZebraHandle) (w : World) (req : Request) : Prop where
  live : ∀ sysno matchStr action, plan zh w.reg req = .change sysno matchStr action →
    sysno ∈ w.lives.live
  rank : ∀ sysno matchStr action, plan zh w.reg req = .change sysno matchStr action →
    ¬(action = .delete ∨ action = .aDelete) → RankOk zh.staticrank (extractedRank req)
  components : ∀ entry ∈ req.stream.elim [] Extraction.keys, ∀ component ∈ entry.key,
    0 ≤ component
  /-- No key without a record id stands beside one that names the record's own number. -/
  separate : ∀ sysno, (∃ matchStr, plan zh w.reg req = .add matchStr) ∧
      sysno = w.reg.records.indexLast ∨
      (∃ matchStr action, plan zh w.reg req = .change sysno matchStr action) →
    Separate sysno (recordKeys zh w.reg req sysno).entries

theorem recordId_nonneg {entry : RecKey} (nonneg : ∀ component ∈ entry.key, 0 ≤ component) :
    0 ≤ entry.recordId := by
  rw [RecKey.recordId, getD_eq_getElem?_getD]
  cases get : entry.key[1]? with
  | none => exact le_rfl
  | some component => exact nonneg component (List.mem_of_getElem? get)

theorem posting_nonneg {entry : RecKey} {staticRankEnable : Bool} {rank : Int}
    (nonneg : ∀ component ∈ entry.key, 0 ≤ component) (rank_ok : RankOk staticRankEnable rank) :
    ∀ component ∈ (entry.posting staticRankEnable sysno rank).key, 0 ≤ component := by
  intro component mem
  rcases mem_append.mp mem with mem | mem
  · split at mem
    · rw [mem_singleton] at mem
      exact mem ▸ rank_ok ‹_›
    · cases mem
  · rcases mem_cons.mp mem with rfl | mem
    · split
      · exact recordId_nonneg nonneg
      · exact Int.natCast_nonneg sysno
    · exact nonneg component (mem_of_mem_drop mem)

/-- Keys without negative components, and a custom record id that is not negative. -/
def RecKeys.NonNeg (keys : RecKeys) : Prop :=
  0 ≤ keys.customRecordId ∧ ∀ entry ∈ keys.entries, ∀ component ∈ entry.key, 0 ≤ component

theorem RecKeys.write_nonNeg {keys : RecKeys} {entry : RecKey} (nonneg : keys.NonNeg)
    (entry_nonneg : ∀ component ∈ entry.key, 0 ≤ component) : (keys.write entry).NonNeg := by
  refine ⟨?_, fun other mem => ?_⟩
  · unfold RecKeys.write
    dsimp only
    split
    · exact recordId_nonneg entry_nonneg
    · exact nonneg.1
  · unfold RecKeys.write at mem
    split at mem
    · exact nonneg.2 other mem
    · rcases mem_append.mp mem with mem | mem
      · exact nonneg.2 other mem
      · rw [mem_singleton] at mem
        exact mem ▸ entry_nonneg

theorem RecKeys.writeAll_nonNeg {keys : RecKeys} {entries : List RecKey} (nonneg : keys.NonNeg)
    (entries_nonneg : ∀ entry ∈ entries, ∀ component ∈ entry.key, 0 ≤ component) :
    (keys.writeAll entries).NonNeg := by
  induction entries generalizing keys with
  | nil => exact nonneg
  | cons entry entries induction =>
    exact induction (write_nonNeg nonneg (entries_nonneg entry mem_cons_self))
      fun other mem => entries_nonneg other (mem_cons_of_mem _ mem)

theorem streamKeys_nonNeg (custom : 0 ≤ reg.keys.customRecordId)
    (components : ∀ entry ∈ req.stream.elim [] Extraction.keys, ∀ component ∈ entry.key,
      0 ≤ component) : (streamKeys reg req).NonNeg :=
  RecKeys.writeAll_nonNeg ⟨custom, fun _ mem => absurd mem not_mem_nil⟩ components

theorem recordKeys_nonNeg (custom : 0 ≤ reg.keys.customRecordId)
    (components : ∀ entry ∈ req.stream.elim [] Extraction.keys, ∀ component ∈ entry.key,
      0 ≤ component) : (recordKeys zh reg req sysno).NonNeg := by
  have streamed := streamKeys_nonNeg custom components
  unfold recordKeys
  split
  · refine RecKeys.write_nonNeg streamed fun component mem => ?_
    have custom' := streamed.1
    simp only [mem_append, mem_cons, not_mem_nil, or_false] at mem
    rcases mem with ((rfl | rfl | rfl) | mem) | rfl
    · exact Int.natCast_nonneg _
    · exact custom'
    · exact le_rfl
    · split at mem
      · rw [mem_singleton] at mem
        exact mem ▸ le_rfl
      · cases mem
    · exact Int.natCast_nonneg _
  · exact streamed

/-- The balance of the key block, with what it needs of the versions. -/
structure Balanced (zh : ZebraHandle) (w : World) : Prop where
  net : ∀ sysno posting, w.reg.keyBlock.net sysno posting =
    if sysno ∈ w.lives.live then
      (writtenCount zh.staticrank sysno (w.lives.version sysno).rank
        (w.lives.version sysno).keys posting : Int) else 0
  written : NonNegative w
  custom : 0 ≤ w.reg.keys.customRecordId
  rank : ∀ sysno ∈ w.lives.live, RankOk zh.staticrank (w.lives.version sysno).rank
  components : ∀ sysno ∈ w.lives.live, ∀ entry ∈ (w.lives.version sysno).keys,
    ∀ component ∈ entry.key, 0 ≤ component
  separate : ∀ sysno ∈ w.lives.live, Separate sysno (w.lives.version sysno).keys

theorem insertedRank_ok (zh : ZebraHandle) (req : Request) :
    RankOk zh.staticrank (insertedRank req) := by
  intro _
  unfold insertedRank
  split <;> omega

theorem balanced_version (sysno : Nat) (version : Version) (balanced : Balanced zh w)
    (live : w'.lives.live = insert sysno w.lives.live)
    (version_eq : w'.lives.version = Function.update w.lives.version sysno version)
    (net : ∀ other posting, w'.reg.keyBlock.net other posting =
      w.reg.keyBlock.net other posting + if sysno = other then
        (writtenCount zh.staticrank sysno version.rank version.keys posting : Int) -
          (if sysno ∈ w.lives.live then writtenCount zh.staticrank sysno
            (w.lives.version sysno).rank (w.lives.version sysno).keys posting else 0 : Nat) else 0)
    (written : ∀ write ∈ w'.reg.keyBlock, write ∈ w.reg.keyBlock ∨
      write.posting ∈ version.keys.map (RecKey.posting zh.staticrank sysno version.rank) ∨
      sysno ∈ w.lives.live ∧ write.posting ∈ (w.lives.version sysno).keys.map
        (RecKey.posting zh.staticrank sysno (w.lives.version sysno).rank))
    (custom : 0 ≤ w'.reg.keys.customRecordId)
    (rank : RankOk zh.staticrank version.rank)
    (components : ∀ entry ∈ version.keys, ∀ component ∈ entry.key, 0 ≤ component)
    (separate : Separate sysno version.keys) : Balanced zh w' := by
  have each {P : Nat → Version → Prop} (own : P sysno version)
      (others : ∀ other ∈ w.lives.live, P other (w.lives.version other)) :
      ∀ other ∈ w'.lives.live, P other (w'.lives.version other) := by
    intro other mem
    rw [version_eq]
    by_cases same : other = sysno
    · subst same
      rw [update_self]
      exact own
    · rw [update_of_ne same]
      rw [live] at mem
      exact others other (Finset.mem_of_mem_insert_of_ne mem same)
  refine ⟨fun other posting => ?_, fun write mem => ?_, custom,
    each (P := fun _ version => RankOk zh.staticrank version.rank) rank balanced.rank,
    each (P := fun _ version => ∀ entry ∈ version.keys, ∀ component ∈ entry.key, 0 ≤ component)
      components balanced.components,
    each (P := fun sysno version => Separate sysno version.keys) separate balanced.separate⟩
  · rw [net, balanced.net, live, version_eq]
    by_cases same : other = sysno
    · subst same
      rw [update_self, if_pos rfl, if_pos (Finset.mem_insert_self _ _)]
      split <;> simp
    · rw [update_of_ne same, if_neg (Ne.symm same), add_zero]
      simp only [Finset.mem_insert, same, false_or]
  · rcases written write mem with mem | mem | ⟨is_live, mem⟩
    · exact balanced.written write mem
    · obtain ⟨entry, mem, eq⟩ := mem_map.mp mem
      rw [← eq]
      exact posting_nonneg (components entry mem) rank
    · obtain ⟨entry, mem, eq⟩ := mem_map.mp mem
      rw [← eq]
      exact posting_nonneg (balanced.components sysno is_live entry mem)
        (balanced.rank sysno is_live)

theorem balanced_step (balanced : Balanced zh w) (regular : Regular zh w req)
    (effect : Effect zh w req w') : Balanced zh w' := by
  have streamed := streamKeys_nonNeg balanced.custom regular.components
  have keyed (sysno : Nat) : (recordKeys zh w.reg req sysno).NonNeg :=
    recordKeys_nonNeg balanced.custom regular.components
  cases effect with
  | idle lives matchDict zei keyBlock custom =>
    refine ⟨?_, ?_, custom ▸ streamed.1, ?_, ?_, ?_⟩
    · rw [keyBlock, lives]
      exact balanced.net
    · rw [NonNegative, keyBlock]
      exact balanced.written
    · exact lives ▸ balanced.rank
    · exact lives ▸ balanced.components
    · exact lives ▸ balanced.separate
  | added sysno matchStr version e planned stream fresh pos sysno_eq version_eq lives keyBlock zei
      matchDict custom =>
      obtain ⟨net, written⟩ := flushKeys_spec keyBlock
      refine balanced_version sysno version balanced ?_ ?_ (fun other posting => ?_)
        (fun write mem => ?_) ?_ ?_ ?_ ?_
      · rw [lives]
        rfl
      · rw [lives]
        rfl
      · rw [net, if_neg fresh]
        rfl
      · rcases written write mem with mem | ⟨-, mem | mem⟩
        · exact .inl mem
        · exact absurd mem not_mem_nil
        · exact .inr (.inl mem)
      · exact custom ▸ (keyed sysno).1
      · exact version_eq ▸ insertedRank_ok zh req
      · exact version_eq ▸ (keyed sysno).2
      · exact version_eq ▸ regular.separate sysno (.inl ⟨⟨matchStr, planned⟩, sysno_eq⟩)
  | updated sysno matchStr action version e planned is_update stream is_live version_eq lives
      keyBlock zei matchDict custom =>
      obtain ⟨net, written⟩ := flushKeys_spec keyBlock
      refine balanced_version sysno version balanced ?_ ?_ (fun other posting => ?_)
        (fun write mem => ?_) ?_ ?_ ?_ ?_
      · rw [lives]
        exact (Finset.insert_eq_of_mem is_live).symm
      · rw [lives]
        rfl
      · rw [net, if_pos is_live]
        rfl
      · rcases written write mem with mem | ⟨-, mem | mem⟩
        · exact .inl mem
        · exact .inr (.inr ⟨is_live, mem⟩)
        · exact .inr (.inl mem)
      · exact custom ▸ (keyed sysno).1
      · exact version_eq ▸ regular.rank sysno matchStr action planned is_update
      · exact version_eq ▸ (keyed sysno).2
      · exact version_eq ▸ regular.separate sysno (.inr ⟨matchStr, action, planned⟩)
  | deleted sysno matchStr action planned is_delete is_live lives keyBlock zei matchDict custom =>
    obtain ⟨net, written⟩ := flushKeys_spec keyBlock
    have others : ∀ other ∈ w'.lives.live, other ∈ w.lives.live := by
      rw [lives]
      exact fun other mem => Finset.mem_of_mem_erase mem
    have versions : w'.lives.version = w.lives.version := by rw [lives]; rfl
    refine ⟨fun other posting => ?_, fun write mem => ?_, custom ▸ (keyed sysno).1, ?_, ?_, ?_⟩
    · rw [net, balanced.net, lives]
      by_cases same : other = sysno
      · subst same
        simp [Lives.apply, is_live, writtenCount_nil]
      · simp [Lives.apply, same, Ne.symm same]
    · rcases written write mem with mem | ⟨-, mem | mem⟩
      · exact balanced.written write mem
      · obtain ⟨entry, mem, eq⟩ := mem_map.mp mem
        rw [← eq]
        exact posting_nonneg (balanced.components sysno is_live entry mem)
          (balanced.rank sysno is_live)
      · exact absurd mem not_mem_nil
    · exact versions ▸ fun other mem => balanced.rank other (others other mem)
    · exact versions ▸ fun other mem => balanced.components other (others other mem)
    · exact versions ▸ fun other mem => balanced.separate other (others other mem)

theorem balanced_of_reaches (stores : zh.storeKeys = true) (run : Reaches zh (Regular zh) w) :
    Tracks zh w ∧ Balanced zh w := by
  refine Reaches.induct (fun w req _ _ regular sysno matchStr action planned =>
      ⟨regular.live sysno matchStr action planned, stores⟩)
    (fun indexLast chunk _ => ?_)
    (fun w req w' _ balanced regular effect _ => balanced_step balanced regular effect)
    (fun w _ balanced => ⟨balanced.net, balanced.written, le_rfl, balanced.rank,
      balanced.components, balanced.separate⟩) run
  exact ⟨fun _ _ => rfl, fun _ mem => absurd mem not_mem_nil, le_rfl,
    fun _ mem => absurd mem (Finset.notMem_empty _),
    fun _ mem => absurd mem (Finset.notMem_empty _),
    fun _ mem => absurd mem (Finset.notMem_empty _)⟩

/-- A request that meets the conditions goes through. -/
theorem step_ok (stores : zh.storeKeys = true) (tracks : Tracks zh w) (balanced : Balanced zh w)
    (regular : Regular zh w req) (in_range : w.reg.records.indexLast ≤ usualRange) :
    ∃ w', w.step zh req = .ok w' := by
  have mapped {out : Except Register (ZebraRes × Register)}
      (extracted : extractRecordStream zh w.reg req = out) (through : ∃ a, out = .ok a) :
      ∃ w', w.step zh req = .ok w' := by
    obtain ⟨a, rfl⟩ := through
    exact ⟨_, by rw [World.step, extracted]; rfl⟩
  cases planned : plan zh w.reg req with
  | stop res =>
    refine mapped rfl ⟨(res, { w.reg with keys := streamKeys w.reg req }), ?_⟩
    rw [extractRecordStream, planned]
  | add matchStr =>
    obtain ⟨-, records', new_eq, -, -⟩ :=
      @Records.new_spec _ zh.infoSize _ _ Record.blank tracks.keeps in_range
    obtain ⟨block, flushed⟩ := flushKeys_ok w.reg.records.indexLast
      (insertedRank_ok zh req) (fun _ => le_rfl) w.reg.zei w.reg.keyBlock
      (some (recordKeys zh w.reg req w.reg.records.indexLast).entries) none
    have added : ∃ reg', addRecord zh w.reg req matchStr = .ok reg' := by
      rw [addRecord, new_eq]
      dsimp only
      rw [insertedRank] at flushed
      simp only [Record.blank, Record.initAttr, Option.getD_none]
      rw [flushed]
      exact ⟨_, rfl⟩
    obtain ⟨reg', added⟩ := added
    refine mapped rfl ⟨(.ok, reg'), ?_⟩
    rw [extractRecordStream, planned]
    dsimp only
    rw [added]
    rfl
  | change sysno matchStr action =>
    have is_live := regular.live sysno matchStr action planned
    obtain ⟨records', get_eq, -⟩ := get_live tracks is_live
    have changed : ∃ reg', changeRecord zh w.reg req sysno matchStr action = .ok reg' := by
      rw [changeRecord, get_eq]
      dsimp only
      by_cases is_delete : action = .delete ∨ action = .aDelete
      · rw [if_pos is_delete, deleteRecord]
        dsimp only
        obtain ⟨block, flushed⟩ := flushKeys_ok sysno (balanced.rank sysno is_live)
          (balanced.rank sysno is_live)
          (w.reg.zei.recordBytesIncrement
            (castInt (-((w.lives.version sysno).record zh).initAttr.recordSize)))
          w.reg.keyBlock none (some ((w.lives.version sysno).record zh).delKeys)
        simp only [Version.record, stores, if_true, Record.initAttr, Option.getD_some]
          at flushed ⊢
        rw [flushed]
        dsimp only
        split <;> exact ⟨_, rfl⟩
      · rw [if_neg is_delete, updateRecord]
        dsimp only
        obtain ⟨block, flushed⟩ := flushKeys_ok sysno
          (regular.rank sysno matchStr action planned is_delete) (balanced.rank sysno is_live)
          (w.reg.zei.recordBytesIncrement
            (castInt (-((w.lives.version sysno).record zh).initAttr.recordSize)))
          w.reg.keyBlock (some (recordKeys zh w.reg req sysno).entries)
          (some ((w.lives.version sysno).record zh).delKeys)
        simp only [Version.record, Record.initAttr, Option.getD_some] at flushed ⊢
        rw [flushed]
        exact ⟨_, rfl⟩
    obtain ⟨reg', changed⟩ := changed
    refine mapped rfl ⟨(.ok, reg'), ?_⟩
    rw [extractRecordStream, planned]
    dsimp only
    rw [changed]
    rfl

theorem posting_bare {a b : RecKey} {staticRankEnable : Bool} {rank : Int}
    (same : a.posting staticRankEnable sysno rank = b.posting staticRankEnable sysno rank) :
    a.posting false sysno 0 = b.posting false sysno 0 := by
  simp only [RecKey.posting, Posting.mk.injEq] at same ⊢
  exact ⟨same.1, same.2.1, append_cancel_left same.2.2⟩

theorem writtenCount_eq {keys : List RecKey} (nodup : keys.Nodup) (separate : Separate sysno keys)
    (staticRankEnable : Bool) (rank : Int) (posting : Posting) :
    writtenCount staticRankEnable sysno rank keys posting =
      if posting ∈ keys.map (RecKey.posting staticRankEnable sysno rank) then 1 else 0 := by
  have postings_nodup : (keys.map (RecKey.posting staticRankEnable sysno rank)).Nodup :=
    nodup.map_on fun a mem_a b mem_b same => separate a mem_a b mem_b (posting_bare same)
  split
  · exact count_eq_one_of_mem postings_nodup ‹_›
  · exact count_eq_zero_of_not_mem ‹_›

/-- In every run whose requests meet the conditions the postings of the live records have balance
one and all others zero, no negative key is written, and the next such request goes through. -/
theorem postings_conserved (zh : ZebraHandle) (stores : zh.storeKeys = true) (w : World)
    (run : Reaches zh (Regular zh) w) :
    Conserved zh w ∧ NonNegative w ∧
      ∀ req, Regular zh w req → w.reg.records.indexLast ≤ usualRange →
        ∃ w', w.step zh req = .ok w' := by
  obtain ⟨tracks, balanced⟩ := balanced_of_reaches stores run
  refine ⟨fun sysno posting => ?_, balanced.written,
    fun req regular in_range => step_ok stores tracks balanced regular in_range⟩
  rw [balanced.net]
  by_cases is_live : sysno ∈ w.lives.live
  · rw [if_pos is_live, writtenCount_eq (tracks.nodup sysno is_live)
      (balanced.separate sysno is_live)]
    simp [is_live]
  · rw [if_neg is_live, if_neg fun both => is_live both.1]

def oneKey : Extraction where
  result := .ok
  keys := [{ str := [97], key := [2, 0, 0, 1] }]
  staticrank := 0
  matchCriteria := []
  action := .update
  startOffset := 0
  endOffset := 10
  storeData := none

def insertOne : Request where
  action := .update
  sysno := some 0
  matchCriteria := []
  fname := []
  stream := some oneKey
  streamless := nofun

def deleteByNumber (sysno : Nat) : Request where
  action := .delete
  sysno := some sysno
  matchCriteria := []
  fname := []
  stream := none
  streamless := fun _ => ⟨rfl, .inl rfl⟩

/-- A key for another term, which declares the id 7. -/
def otherKey : Extraction := { oneKey with keys := [{ str := [98], key := [2, 7, 0, 1] }] }

def insertOther : Request where
  action := .update
  sysno := some 0
  matchCriteria := []
  fname := []
  stream := some otherKey
  streamless := nofun

/-- Give record 1 the other key. -/
def updateOne : Request where
  action := .update
  sysno := some 1
  matchCriteria := []
  fname := []
  stream := some otherKey
  streamless := nofun

theorem regular_add {w : World} {req : Request} {matchStr : Option (List Byte)}
    (planned : plan plainHandle w.reg req = .add matchStr)
    (components : ∀ entry ∈ req.stream.elim [] Extraction.keys, ∀ component ∈ entry.key,
      0 ≤ component)
    (separate : Separate w.reg.records.indexLast
      (recordKeys plainHandle w.reg req w.reg.records.indexLast).entries) :
    Regular plainHandle w req where
  live := by
    intro sysno matchStr' action planned'
    cases planned.symm.trans planned'
  rank := by
    intro sysno matchStr' action planned' update fixed
    cases fixed
  components := components
  separate := by
    rintro sysno (⟨-, rfl⟩ | ⟨matchStr', action, planned'⟩)
    · exact separate
    · cases planned.symm.trans planned'

theorem regular_change {w : World} {req : Request} {sysno : Nat} {matchStr : Option (List Byte)}
    {action : Action} (planned : plan plainHandle w.reg req = .change sysno matchStr action)
    (live : sysno ∈ w.lives.live)
    (components : ∀ entry ∈ req.stream.elim [] Extraction.keys, ∀ component ∈ entry.key,
      0 ≤ component)
    (separate : Separate sysno (recordKeys plainHandle w.reg req sysno).entries) :
    Regular plainHandle w req where
  live := by
    intro sysno' matchStr' action' planned'
    cases planned.symm.trans planned'
    exact live
  rank := by
    intro sysno' matchStr' action' planned' update fixed
    cases fixed
  components := components
  separate := by
    rintro sysno' (⟨⟨matchStr', planned'⟩, -⟩ | ⟨matchStr', action', planned'⟩)
    · cases planned.symm.trans planned'
    · cases planned.symm.trans planned'
      exact separate

theorem postings_conserved_one : ∃ w, Reaches plainHandle (Regular plainHandle) w ∧
    w.lives.live = {1} ∧ Conserved plainHandle w ∧ NonNegative w ∧
      ∀ req, Regular plainHandle w req → w.reg.records.indexLast ≤ usualRange →
        ∃ w', w.step plainHandle req = .ok w' := by
  have start : Reaches plainHandle (Regular plainHandle) (World.empty 1 0) :=
    .empty 1 0 (by decide)
  have one := Reaches.request insertOne start
    (regular_add rfl (by decide) (by unfold Separate; decide)) rfl
  have two := Reaches.request insertOther one
    (regular_add rfl (by decide) (by unfold Separate; decide)) rfl
  have updated := Reaches.request updateOne two
    (regular_change rfl (by decide) (by decide) (by unfold Separate; decide)) rfl
  have deleted := Reaches.request (deleteByNumber 2) updated
    (regular_change rfl (by decide) (by decide) (by unfold Separate; decide)) rfl
  exact ⟨_, deleted.reopen, by decide, postings_conserved plainHandle rfl _ deleted.reopen⟩

/-- The second delete finds the record in the cache, where it is still flagged as new, and deletes
its keys again. -/
theorem deleted_twice_unbalanced : ∃ zh w, zh.storeKeys = true ∧
    Reaches zh (fun _ _ => True) w ∧ ¬Conserved zh w := by
  have start : Reaches plainHandle (fun _ _ => True) (World.empty 1 0) := .empty 1 0 (by decide)
  have inserted := Reaches.request insertOne start trivial rfl
  have deleted := Reaches.request (deleteByNumber 1) inserted trivial rfl
  have again := Reaches.request (deleteByNumber 1) deleted trivial rfl
  refine ⟨plainHandle, _, rfl, again, fun conserved => ?_⟩
  have balance := conserved 1 ⟨2, [97], [1, 0, 1]⟩
  revert balance
  decide

end Zebra.Update
