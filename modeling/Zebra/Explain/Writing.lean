import Zebra.Explain.Databases

/-!
# Flushing

A part that has to be written is given a record before the extraction and put there after it.  A
flush leaves every part in its record.
-/

namespace Zebra.Explain

open Option List DatabaseInfo Records

/-- What `createRecord` gives for a system number: the record of that number, or a new one. -/
structure Made (records : Records) (old sysno : Nat) (made : Records) : Prop where
  ne_zero : sysno ≠ 0
  le : sysno ≤ made.indexLast
  last : records.indexLast ≤ made.indexLast
  fresh : sysno = old ∨ records.indexLast < sysno
  kept : ∀ other ≤ records.indexLast, made.info other = records.info other
  same : old ≠ 0 → sysno = old ∧ made = records

theorem made_new (records : Records) : Made records 0 records.new.1 records.new.2 where
  ne_zero := Nat.succ_ne_zero _
  le := le_rfl
  last := Nat.le_succ _
  fresh := Or.inr (Nat.lt_succ_self _)
  kept _ earlier := records.new_other earlier
  same numbered := absurd rfl numbered

theorem createRecord_spec {records : Records} {busy : Part → Prop} {zdi : DatabaseInfo}
    (good : zdi.Good records busy) (part : Part) (idle : ¬busy part) :
    ∃ sysno made, records.createRecord (zdi.sysnoOf part) = some (sysno, made) ∧
      Made records (zdi.sysnoOf part) sysno made := by
  rw [createRecord]
  split
  · next unnumbered =>
    rw [unnumbered]
    exact ⟨_, _, rfl, made_new records⟩
  · next numbered =>
    obtain ⟨data, here⟩ := good.there part numbered idle
    refine ⟨zdi.sysnoOf part, records, by rw [here]; rfl, ?_⟩
    exact ⟨numbered, good.sysno_le part, le_rfl, Or.inl rfl, fun _ _ => rfl, fun _ => ⟨rfl, rfl⟩⟩

namespace DatabaseInfo

theorem setWritten_sysnoOf (zdi : DatabaseInfo) (sysno : Nat) (part q : Part) :
    (zdi.setWritten sysno part).sysnoOf q = if q = part then sysno else zdi.sysnoOf q := by
  cases part <;> cases q <;> rfl

theorem setWritten_isUnread (zdi : DatabaseInfo) (sysno : Nat) (part q : Part) :
    (zdi.setWritten sysno part).isUnread q = zdi.isUnread q := by
  cases part <;> cases q <;> rfl

theorem setWritten_isDirty (zdi : DatabaseInfo) (sysno : Nat) (part q : Part) :
    (zdi.setWritten sysno part).isDirty q = if q = part then false else zdi.isDirty q := by
  cases part <;> cases q <;> rfl

theorem setWritten_view {zdi : DatabaseInfo} {part : Part} (read : zdi.isUnread part = false)
    (records : Records) (sysno : Nat) :
    (zdi.setWritten sysno part).view records = zdi.view records := by
  cases part with
  | database =>
    have ordinal : (zdi.setWritten sysno .database).ordinal records = zdi.ordinal records := by
      have read' : zdi.readFlag = false := read
      simp [ordinal, setWritten, read']
    unfold view
    rw [ordinal]
    rfl
  | details =>
    have attributes : (zdi.setWritten sysno .details).attributes records =
        zdi.attributes records := by
      have read' : zdi.attributeDetails.readFlag = false := read
      simp [attributes, setWritten, read']
    unfold view
    rw [attributes]
    rfl

theorem Good.setWritten {records made : Records} {zdi : DatabaseInfo} {part : Part} {sysno : Nat}
    {busy : Part → Prop} (good : zdi.Good records fun _ => False)
    (read : zdi.isUnread part = false) (new : Made records (zdi.sysnoOf part) sysno made)
    (writing : ∀ q, busy q ↔ q = part) : (zdi.setWritten sysno part).Good made busy where
  sysno_le q := by
    rw [setWritten_sysnoOf]
    split
    · exact new.le
    · exact (good.sysno_le q).trans new.last
  there q numbered idle := by
    have apart : q ≠ part := fun same => idle ((writing q).mpr same)
    rw [setWritten_sysnoOf, if_neg apart] at numbered ⊢
    rw [new.kept _ (good.sysno_le q)]
    exact good.there q numbered id
  unread q unread := by
    rw [setWritten_isUnread] at unread
    have apart : q ≠ part := by
      rintro rfl
      exact Bool.false_ne_true (read.symm.trans unread)
    refine ⟨?_, fun busy => apart ((writing q).mp busy)⟩
    rw [setWritten_isDirty, if_neg apart]
    exact (good.unread q unread).1
  busy_sysno q busy := by
    rw [setWritten_sysnoOf, if_pos ((writing q).mp busy)]
    exact new.ne_zero
  stored q written idle := by
    have apart : q ≠ part := fun same => idle ((writing q).mpr same)
    rw [setWritten_isDirty, if_neg apart] at written
    obtain ⟨numbered, data, here, content⟩ := good.stored q written id
    rw [setWritten_sysnoOf, if_neg apart]
    refine ⟨numbered, data, (new.kept _ (good.sysno_le q)).trans here, ?_⟩
    cases q <;> cases part <;> exact content

theorem Good.put {records others : Records} {zdi : DatabaseInfo} {part : Part}
    {busy : Part → Prop} {data : StoreData} (good : zdi.Good records busy)
    (writing : ∀ q, busy q ↔ q = part) (last : records.indexLast ≤ others.indexLast)
    (kept : ∀ q, q ≠ part → zdi.sysnoOf q ≠ 0 →
      others.info (zdi.sysnoOf q) = records.info (zdi.sysnoOf q))
    (here : others.info (zdi.sysnoOf part) = some data) (content : zdi.Matches data part) :
    zdi.Good others fun _ => False where
  sysno_le q := (good.sysno_le q).trans last
  there q numbered _ := by
    rcases eq_or_ne q part with rfl | apart
    · exact ⟨data, here⟩
    · rw [kept q apart numbered]
      exact good.there q numbered fun busy => apart ((writing q).mp busy)
  unread q unread := ⟨(good.unread q unread).1, id⟩
  busy_sysno _ busy := busy.elim
  stored q written _ := by
    rcases eq_or_ne q part with rfl | apart
    · exact ⟨good.busy_sysno q ((writing q).mpr rfl), data, here, content⟩
    · obtain ⟨numbered, stored, there, same⟩ :=
        good.stored q written fun busy => apart ((writing q).mp busy)
      exact ⟨numbered, stored, (kept q apart numbered).trans there, same⟩

end DatabaseInfo

theorem readBack_written {yaz : Yaz} {sui : SUInfo} (type : yaz.Plain sui.indexType)
    (name : yaz.Plain sui.str) : (sui.written yaz).readBack = some sui := by
  have written : sui.written yaz = sui := by
    rw [SUInfo.written, type.2, name.2]
  rw [written, SUInfo.readBack, if_neg name.1, if_neg type.1]

namespace ExplainInfo

variable {yaz : Yaz} {zei next : ExplainInfo}

def begun (zei : ExplainInfo) (zdi : Nat) (part : Part) (sysno : Nat) (made : Records) :
    ExplainInfo :=
  { zei.setDatabase zdi ((zei.memory zdi).setWritten sysno part) with records := made }

theorem begun_same (zei : ExplainInfo) (zdi : Nat) (part : Part) (sysno : Nat) (made : Records) :
    (zei.begun zdi part sysno made).memory zdi = (zei.memory zdi).setWritten sysno part :=
  setDatabase_same zei zdi _

theorem begun_other (zei : ExplainInfo) {zdi other : Nat} (part : Part) (sysno : Nat)
    (made : Records) (apart : other ≠ zdi) :
    (zei.begun zdi part sysno made).memory other = zei.memory other :=
  setDatabase_other zei _ apart

theorem begun_sysnoOf (zei : ExplainInfo) (zdi : Nat) (part : Part) (sysno : Nat) (made : Records)
    (other : Nat) (q : Part) :
    ((zei.begun zdi part sysno made).memory other).sysnoOf q =
      if other = zdi ∧ q = part then sysno else (zei.memory other).sysnoOf q := by
  rcases eq_or_ne other zdi with rfl | apart
  · rw [begun_same, setWritten_sysnoOf]
    simp
  · rw [begun_other zei part sysno made apart, if_neg fun same => apart same.1]

theorem begun_isDirty (zei : ExplainInfo) (zdi : Nat) (part : Part) (sysno : Nat) (made : Records)
    (other : Nat) (q : Part) :
    ((zei.begun zdi part sysno made).memory other).isDirty q =
      if other = zdi ∧ q = part then false else (zei.memory other).isDirty q := by
  rcases eq_or_ne other zdi with rfl | apart
  · rw [begun_same, setWritten_isDirty]
    simp
  · rw [begun_other zei part sysno made apart, if_neg fun same => apart same.1]

variable {zdi : Nat}

theorem Inv.idle (inv : zei.Inv yaz none) (mem : zdi ∈ zei.databaseInfo) :
    (zei.memory zdi).Good zei.records fun _ => False := by
  apply (inv.good zdi mem).of_records
  · exact le_rfl
  · exact fun _ _ _ => rfl
  · exact fun _ busy => nomatch busy
  · exact fun _ busy => busy.elim

variable {part : Part}

theorem numbered_begun (inv : zei.Inv yaz none) {sysno : Nat}
    {made : Records} (mem : zdi ∈ zei.databaseInfo)
    (new : Made zei.records ((zei.memory zdi).sysnoOf part) sysno made) :
    (zei.begun zdi part sysno made).Numbered where
  nodup := inv.numbered.nodup
  allocated := inv.numbered.allocated
  apart a ha b hb p q same nonzero := by
    have elsewhere (other : Nat) (listed : other ∈ zei.databaseInfo) (r : Part)
        (equal : sysno = (zei.memory other).sysnoOf r) : other = zdi ∧ r = part := by
      rcases new.fresh with old | fresh
      · have numbered : (zei.memory zdi).sysnoOf part ≠ 0 := old ▸ new.ne_zero
        obtain ⟨rfl, rfl⟩ :=
          inv.numbered.apart zdi mem other listed part r (old.symm.trans equal) numbered
        exact ⟨rfl, rfl⟩
      · have := (inv.good other listed).sysno_le r
        omega
    rw [begun_sysnoOf] at same nonzero
    rw [begun_sysnoOf] at same
    split at same
    · next first =>
      split at same
      · next second => exact ⟨first.1.trans second.1.symm, first.2.trans second.2.symm⟩
      · next second => exact absurd (elsewhere b hb q same) second
    · next first =>
      rw [if_neg first] at nonzero
      split at same
      · exact absurd (elsewhere a ha p same.symm) first
      · exact inv.numbered.apart a ha b hb p q same nonzero
  not_root other listed q := by
    rw [begun_sysnoOf]
    split
    · rcases new.fresh with old | fresh
      · rw [old]
        exact inv.numbered.not_root zdi mem part
      · have := inv.numbered.root.1
        omega
    · exact inv.numbered.not_root other listed q
  root := by
    refine ⟨inv.numbered.root.1.trans new.last, ?_⟩
    obtain ⟨data, here⟩ := inv.numbered.root.2
    exact ⟨data, (new.kept 1 inv.numbered.root.1).trans here⟩

/-- Nothing moves when the part has its record already. -/
theorem frame_begun (zei : ExplainInfo) {sysno : Nat}
    (old : sysno = (zei.memory zdi).sysnoOf part) :
    Frame zei (zei.begun zdi part sysno zei.records) := by
  have frame : Frame zei (zei.setDatabase zdi ((zei.memory zdi).setWritten sysno part)) := by
    apply frame_setDatabase
    · cases part <;> rfl
    · intro q
      rw [setWritten_sysnoOf]
      split
      · next same => rw [same, old]
      · rfl
    · intro q before
      rw [setWritten_isUnread]
      exact before
    · intro _
      cases part <;> rfl
  exact frame

theorem Inv.begun (inv : zei.Inv yaz none) (writes : zei.writeFlag = true)
    {sysno : Nat} {made : Records} (mem : zdi ∈ zei.databaseInfo)
    (dirty : (zei.memory zdi).isDirty part = true)
    (new : Made zei.records ((zei.memory zdi).sysnoOf part) sysno made) :
    (zei.begun zdi part sysno made).Inv yaz (some (.part zdi part)) := by
  have read : (zei.memory zdi).isUnread part = false := by
    rw [Bool.eq_false_iff]
    intro unread
    exact Bool.false_ne_true (((inv.idle mem).unread part unread).1.symm.trans dirty)
  exact
    { numbered := numbered_begun inv mem new
      good := by
        intro other listed
        rcases eq_or_ne other zdi with rfl | apart
        · rw [begun_same]
          apply (inv.idle listed).setWritten read new
          intro q
          constructor
          · rintro busy
            cases busy
            rfl
          · rintro rfl
            rfl
        · rw [begun_other zei part sysno made apart]
          apply (inv.idle listed).of_records
          · exact new.last
          · exact fun q _ _ => new.kept _ ((inv.idle listed).sysno_le q)
          · exact fun _ busy => busy.elim
          · intro q busy
            cases busy
            exact absurd rfl apart
      target := by
        intro _ notDirty
        have before := inv.target (fun h => nomatch h) notDirty
        obtain ⟨old, rfl⟩ := new.same (before.2 zdi mem part)
        exact before.frame (frame_begun zei old) rfl rfl
      current := by
        intro cur here
        have current := inv.current cur here
        rcases eq_or_ne cur zdi with rfl | apart
        · refine ⟨current.allocated, ?_, ?_, ?_⟩ <;> rw [begun_same]
          · intro q
            rw [setWritten_isUnread]
            exact current.read q
          · cases part <;> exact current.ordinal_lt
          · cases part <;> exact current.listed
        · refine ⟨current.allocated, ?_, ?_, ?_⟩ <;> rw [begun_other zei part sysno made apart]
          · exact current.read
          · exact current.ordinal_lt
          · exact current.listed
      clean := fun readOnly => absurd (readOnly.symm.trans writes) Bool.false_ne_true
      agrees := by
        have same : (zei.begun zdi part sysno made).views = zei.views := by
          apply map_congr_left
          intro other listed
          have kept : (zei.memory other).view made = (zei.memory other).view zei.records := by
            apply view_of_records (inv.idle listed)
            exact fun q _ _ => new.kept _ ((inv.idle listed).sysno_le q)
          rcases eq_or_ne other zdi with rfl | apart
          · rw [begun_same]
            exact (setWritten_view read made sysno).trans kept
          · rw [begun_other zei part sysno made apart]
            exact kept
        rw [same]
        exact inv.agrees }

/-- What a flush has put into the record of a part is what it has in memory. -/
theorem content_matches {busy : Option Slot} (inv : zei.Inv yaz busy)
    (mem : zdi ∈ zei.databaseInfo) (read : (zei.memory zdi).isUnread part = false)
    (recordCount : Int) : (zei.memory zdi).Matches (content yaz zei zdi recordCount part) part := by
  cases part with
  | database => exact ⟨_, _, _, rfl, fun _ => rfl⟩
  | details =>
    refine ⟨_, rfl, fun _ => ?_⟩
    have plain : ∀ sui ∈ (zei.memory zdi).attributeDetails.SUInfo,
        (SUInfo.readBack ∘ SUInfo.written yaz) sui = some sui := by
      intro sui listed
      have stands : sui.toIndex ∈ ((zei.memory zdi).view zei.records).indexes := by
        rw [indexes_of_read zei.records read]
        exact mem_map_of_mem listed
      have assigned := (inv.agrees.mem_iff (mem_views mem)).mp stands
      obtain ⟨-, -, type, name⟩ := inv.agrees.assigned _ _ assigned
      exact readBack_written type name
    have same : ((zei.memory zdi).attributeDetails.SUInfo.map (SUInfo.written yaz)).filterMap
        SUInfo.readBack = (zei.memory zdi).attributeDetails.SUInfo := by
      rw [filterMap_map, filterMap_congr plain, filterMap_some]
    rw [same]

/-- A part of a database has been put into its record. -/
def ended (yaz : Yaz) (zei : ExplainInfo) (zdi : Nat) (part : Part) (recordCount : Int) :
    ExplainInfo :=
  { zei with
    records := zei.records.put ((zei.memory zdi).sysnoOf part)
      (content yaz zei zdi recordCount part) }

theorem Inv.ended (inv : zei.Inv yaz (some (.part zdi part)))
    (mem : zdi ∈ zei.databaseInfo) (recordCount : Int) :
    (ended yaz zei zdi part recordCount).Inv yaz none := by
  have good := inv.good zdi mem
  have numbered : (zei.memory zdi).sysnoOf part ≠ 0 := good.busy_sysno part rfl
  have read : (zei.memory zdi).isUnread part = false := by
    rw [Bool.eq_false_iff]
    intro unread
    exact (good.unread part unread).2 rfl
  have kept (other : Nat) (listed : other ∈ zei.databaseInfo) (q : Part)
      (nonzero : (zei.memory other).sysnoOf q ≠ 0) (apart : ¬(other = zdi ∧ q = part)) :
      (zei.records.put ((zei.memory zdi).sysnoOf part)
          (content yaz zei zdi recordCount part)).info ((zei.memory other).sysnoOf q) =
        zei.records.info ((zei.memory other).sysnoOf q) := by
    apply put_other
    intro same
    exact apart (inv.numbered.apart other listed zdi mem q part same nonzero)
  have root : (zei.records.put ((zei.memory zdi).sysnoOf part)
      (content yaz zei zdi recordCount part)).info 1 = zei.records.info 1 :=
    put_other zei.records _ (inv.numbered.not_root zdi mem part).symm
  exact
    { numbered := inv.numbered.of_records zei.categoryDirty le_rfl (inv.numbered.root_of_same root)
      good := by
        intro other listed
        rcases eq_or_ne other zdi with rfl | apart
        · have writing (q : Part) :
              some (Slot.part other part) = some (Slot.part other q) ↔ q = part := by
            constructor
            · intro busy
              cases busy
              rfl
            · rintro rfl
              rfl
          have written : (zei.memory other).Good
              (ExplainInfo.ended yaz zei other part recordCount).records fun _ => False := by
            apply good.put writing
            · exact le_rfl
            · exact fun q different nonzero =>
                kept other mem q nonzero fun same => different same.2
            · exact put_same zei.records _ _
            · exact content_matches inv mem read recordCount
          apply written.of_records
          · exact le_rfl
          · exact fun _ _ _ => rfl
          · exact fun _ busy => busy.elim
          · exact fun _ busy => nomatch busy
        · apply (inv.good other listed).of_records
          · exact le_rfl
          · exact fun q nonzero _ => kept other listed q nonzero fun same => apart same.1
          · intro q busy
            cases busy
            exact absurd rfl apart
          · exact fun q busy => nomatch busy
      target := fun _ notDirty =>
        (inv.target (fun h => nomatch h) notDirty).of_records zei.categoryDirty root
      current := fun cur here => (inv.current cur here).of_memory rfl rfl rfl rfl rfl
      clean := inv.clean
      agrees := by
        have same := views_of_records inv zei.categoryDirty
          fun other listed q nonzero unread => kept other listed q nonzero (by
            rintro ⟨rfl, rfl⟩
            exact Bool.false_ne_true (read.symm.trans unread))
        exact same ▸ inv.agrees }

structure Flushing (zei next : ExplainInfo) : Prop where
  databaseInfo : next.databaseInfo = zei.databaseInfo
  writeFlag : next.writeFlag = zei.writeFlag
  sysno : ∀ zdi part, (zei.memory zdi).sysnoOf part ≠ 0 → (next.memory zdi).sysnoOf part ≠ 0

theorem Flushing.refl (zei : ExplainInfo) : Flushing zei zei where
  databaseInfo := rfl
  writeFlag := rfl
  sysno _ _ := id

theorem Flushing.trans {last : ExplainInfo} (first : Flushing zei next)
    (second : Flushing next last) : Flushing zei last where
  databaseInfo := second.databaseInfo.trans first.databaseInfo
  writeFlag := second.writeFlag.trans first.writeFlag
  sysno zdi part := second.sysno zdi part ∘ first.sysno zdi part

theorem Frame.flushing (frame : Frame zei next) : Flushing zei next where
  databaseInfo := frame.databaseInfo
  writeFlag := frame.writeFlag
  sysno zdi part := (frame.sysno zdi part).trans_ne

theorem flushing_begun (zei : ExplainInfo) (zdi : Nat) (part : Part) {sysno : Nat}
    (numbered : sysno ≠ 0) (made : Records) : Flushing zei (zei.begun zdi part sysno made) where
  databaseInfo := rfl
  writeFlag := rfl
  sysno other q before := by
    rw [begun_sysnoOf]
    split
    · exact numbered
    · exact before

/-- Without an extraction nothing has to be written that did not have to be before. -/
def Cleaner (zei next : ExplainInfo) : Prop :=
  next.dirty = zei.dirty ∧ ∀ zdi part, (zei.memory zdi).isDirty part = false →
    (next.memory zdi).isDirty part = false

variable {extracted : Nat → List Extracted} {keyFlush : Bool}

/-- A part is written: it has a record then, and without an extraction it is clean. -/
theorem writePart_spec (inv : zei.Inv yaz none) (writes : zei.writeFlag = true)
    (mem : zdi ∈ zei.databaseInfo) (plain : ∀ sysno, ∀ one ∈ extracted sysno, one.Plain yaz)
    (run : writePart yaz part zei zdi keyFlush extracted = some next) :
    next.Inv yaz none ∧ Flushing zei next ∧ (next.memory zdi).sysnoOf part ≠ 0 ∧
      (keyFlush = false → Cleaner zei next ∧ (next.memory zdi).isDirty part = false) := by
  rw [writePart] at run
  dsimp only at run
  split at run
  · next dirty =>
    obtain ⟨sysno, made, create, new⟩ := createRecord_spec (inv.idle mem) part id
    rw [create] at run
    dsimp only at run
    obtain ⟨updated, update, same⟩ := bind_eq_some_iff.mp run
    cases same
    have begunInv := inv.begun writes mem dirty new
    have begunFlushing := flushing_begun zei zdi part new.ne_zero made
    have begunSysno : ((zei.begun zdi part sysno made).memory zdi).sysnoOf part = sysno := by
      rw [begun_sysnoOf, if_pos ⟨rfl, rfl⟩]
    obtain ⟨updatedInv, updatedFrame, unchanged⟩ :=
      updateKeys_spec begunInv writes (plain _) update
    have updatedSysno : (updated.memory zdi).sysnoOf part = sysno :=
      (updatedFrame.sysno zdi part).trans begunSysno
    have endedInv := updatedInv.ended (updatedFrame.databaseInfo ▸ mem) (zei.memory zdi).recordCount
    rw [ended, updatedSysno] at endedInv
    refine ⟨endedInv, ?_, ?_, ?_⟩
    · have flushing := begunFlushing.trans updatedFrame.flushing
      exact ⟨flushing.databaseInfo, flushing.writeFlag, flushing.sysno⟩
    · exact updatedSysno.trans_ne new.ne_zero
    · intro still
      have same := unchanged still
      constructor
      · have dirty' : updated.dirty = zei.dirty := by
          rw [same]
          rfl
        refine ⟨dirty', ?_⟩
        intro other q before
        dsimp only
        rw [same, begun_isDirty]
        split
        · rfl
        · exact before
      · dsimp only
        rw [same, begun_isDirty, if_pos ⟨rfl, rfl⟩]
  · next clean =>
    cases run
    have written := Bool.eq_false_iff.mpr clean
    exact ⟨inv, Flushing.refl _, ((inv.idle mem).stored part written id).1,
      fun _ => ⟨⟨rfl, fun _ _ => id⟩, written⟩⟩

theorem Cleaner.trans {last : ExplainInfo} (first : Cleaner zei next) (second : Cleaner next last) :
    Cleaner zei last :=
  ⟨second.1.trans first.1, fun zdi part => second.2 zdi part ∘ first.2 zdi part⟩

theorem writeParts_spec (inv : zei.Inv yaz none) (writes : zei.writeFlag = true)
    (mem : zdi ∈ zei.databaseInfo)
    (plain : ∀ sysno, ∀ one ∈ extracted sysno, one.Plain yaz) {between : ExplainInfo}
    (first : writeDatabase yaz zei zdi keyFlush extracted = some between)
    (second : writeAttributeDetails yaz between zdi keyFlush extracted = some next) :
    next.Inv yaz none ∧ Flushing zei next ∧ (∀ part, (next.memory zdi).sysnoOf part ≠ 0) ∧
      (keyFlush = false → Cleaner zei next ∧ ∀ part, (next.memory zdi).isDirty part = false) := by
  obtain ⟨betweenInv, firstFlushing, database, firstClean⟩ :=
    writePart_spec inv writes mem plain first
  obtain ⟨nextInv, secondFlushing, details, secondClean⟩ :=
    writePart_spec betweenInv (firstFlushing.writeFlag.trans writes)
      (firstFlushing.databaseInfo ▸ mem) plain second
  refine ⟨nextInv, firstFlushing.trans secondFlushing, ?_, ?_⟩
  · rintro (_ | _)
    · exact secondFlushing.sysno zdi .database database
    · exact details
  · intro still
    obtain ⟨cleaner, clean⟩ := firstClean still
    obtain ⟨cleaner', clean'⟩ := secondClean still
    refine ⟨cleaner.trans cleaner', ?_⟩
    rintro (_ | _)
    · exact cleaner'.2 zdi .database clean
    · exact clean'

theorem writeDatabases_spec (zdis : List Nat) (inv : zei.Inv yaz none)
    (writes : zei.writeFlag = true) (listed : ∀ zdi ∈ zdis, zdi ∈ zei.databaseInfo)
    (plain : ∀ sysno, ∀ one ∈ extracted sysno, one.Plain yaz)
    (run : writeDatabases yaz keyFlush extracted zdis zei = some next) :
    next.Inv yaz none ∧ Flushing zei next ∧
      (∀ zdi ∈ zdis, ∀ part, (next.memory zdi).sysnoOf part ≠ 0) ∧
      (keyFlush = false → Cleaner zei next ∧
        ∀ zdi ∈ zdis, ∀ part, (next.memory zdi).isDirty part = false) := by
  induction zdis generalizing zei with
  | nil =>
    cases run
    exact ⟨inv, Flushing.refl _, fun _ mem => absurd mem not_mem_nil,
      fun _ => ⟨⟨rfl, fun _ _ => id⟩, fun _ mem => absurd mem not_mem_nil⟩⟩
  | cons zdi rest ih =>
    rw [writeDatabases, foldlM_cons] at run
    obtain ⟨one, step, further⟩ := bind_eq_some_iff.mp run
    obtain ⟨between, first, second⟩ := bind_eq_some_iff.mp step
    obtain ⟨oneInv, oneFlushing, numbered, oneClean⟩ :=
      writeParts_spec inv writes (listed zdi mem_cons_self) plain first second
    have listed' : ∀ other ∈ rest, other ∈ one.databaseInfo := by
      rw [oneFlushing.databaseInfo]
      exact fun other mem => listed other (mem_cons_of_mem _ mem)
    obtain ⟨nextInv, restFlushing, numbered', restClean⟩ :=
      ih oneInv (oneFlushing.writeFlag.trans writes) listed' further
    refine ⟨nextInv, oneFlushing.trans restFlushing, ?_, ?_⟩
    · intro other mem part
      rcases mem_cons.mp mem with rfl | mem
      · exact restFlushing.sysno other part (numbered part)
      · exact numbered' other mem part
    · intro still
      obtain ⟨cleaner, clean⟩ := oneClean still
      obtain ⟨cleaner', clean'⟩ := restClean still
      refine ⟨cleaner.trans cleaner', ?_⟩
      intro other mem part
      rcases mem_cons.mp mem with rfl | mem
      · exact cleaner'.2 other part (clean part)
      · exact clean' other mem part

theorem Inv.of_records (inv : zei.Inv yaz none) {others : Records} (categoryDirty : Bool)
    (last : zei.records.indexLast ≤ others.indexLast)
    (kept : ∀ zdi ∈ zei.databaseInfo, ∀ part,
      others.info ((zei.memory zdi).sysnoOf part) =
        zei.records.info ((zei.memory zdi).sysnoOf part))
    (root : others.info 1 = zei.records.info 1) :
    { zei with records := others, categoryDirty := categoryDirty }.Inv yaz none where
  numbered := inv.numbered.of_records categoryDirty last (inv.numbered.root_of_same root)
  good zdi mem := by
    apply (inv.good zdi mem).of_records
    · exact last
    · exact fun part _ _ => kept zdi mem part
    · exact fun _ busy => nomatch busy
    · exact fun _ busy => nomatch busy
  target _ notDirty := (inv.target (fun h => nomatch h) notDirty).of_records categoryDirty root
  current cur here := (inv.current cur here).of_memory rfl rfl rfl rfl rfl
  clean := inv.clean
  agrees := by
    rw [views_of_records inv categoryDirty fun zdi mem part _ _ => kept zdi mem part]
    exact inv.agrees

/-- `zebraExplain_writeCategoryList`. -/
theorem writeCategoryList_spec (inv : zei.Inv yaz none) (writes : zei.writeFlag = true)
    (plain : ∀ sysno, ∀ one ∈ extracted sysno, one.Plain yaz)
    (run : writeCategoryList yaz zei keyFlush extracted = some next) :
    next.Inv yaz none ∧ Flushing zei next := by
  rw [writeCategoryList] at run
  split at run
  · obtain ⟨updated, update, same⟩ := bind_eq_some_iff.mp run
    cases same
    have earlier (zdi : Nat) (mem : zdi ∈ zei.databaseInfo) (part : Part) :
        (zei.memory zdi).sysnoOf part ≤ zei.records.indexLast := (inv.good zdi mem).sysno_le part
    have newInv := inv.of_records false (Nat.le_succ zei.records.indexLast)
      (fun zdi mem part => zei.records.new_other (earlier zdi mem part))
      (zei.records.new_other inv.numbered.root.1)
    obtain ⟨updatedInv, frame, -⟩ := updateKeys_spec newInv writes (plain _) update
    refine ⟨?_, frame.databaseInfo, frame.writeFlag,
      fun zdi part => (frame.sysno zdi part).trans_ne⟩
    apply updatedInv.of_records updated.categoryDirty
    · exact le_rfl
    · intro zdi mem part
      apply put_other
      rw [frame.sysno zdi part]
      exact Nat.ne_of_lt (Nat.lt_succ_of_le (earlier zdi (frame.databaseInfo ▸ mem) part))
    · apply put_other
      exact Nat.ne_of_lt (Nat.lt_succ_of_le inv.numbered.root.1)
  · cases run
    exact ⟨inv, Flushing.refl _⟩

theorem Inv.beginTarget (inv : zei.Inv yaz none) (writes : zei.writeFlag = true) :
    { zei with dirty := false }.Inv yaz (some .target) where
  numbered := ⟨inv.numbered.nodup, inv.numbered.allocated, inv.numbered.apart,
    inv.numbered.not_root, inv.numbered.root⟩
  good zdi mem := by
    apply (inv.good zdi mem).of_records
    · exact le_rfl
    · exact fun _ _ _ => rfl
    · exact fun _ busy => nomatch busy
    · exact fun _ busy => nomatch busy
  target idle := absurd rfl idle
  current cur here := (inv.current cur here).of_memory rfl rfl rfl rfl rfl
  clean readOnly := absurd (readOnly.symm.trans writes) Bool.false_ne_true
  agrees := inv.agrees

theorem Inv.endTarget (inv : zei.Inv yaz (some .target))
    (numbered : ∀ zdi ∈ zei.databaseInfo, ∀ part, (zei.memory zdi).sysnoOf part ≠ 0) :
    { zei with records := zei.records.put 1 (.target (some (targetInfo yaz zei))) }.Inv yaz
      none := by
  have kept (zdi : Nat) (mem : zdi ∈ zei.databaseInfo) (part : Part) :
      (zei.records.put 1 (.target (some (targetInfo yaz zei)))).info
        ((zei.memory zdi).sysnoOf part) = zei.records.info ((zei.memory zdi).sysnoOf part) :=
    put_other zei.records _ (inv.numbered.not_root zdi mem part)
  exact
    { numbered := inv.numbered.of_records zei.categoryDirty le_rfl
        ⟨_, put_same zei.records 1 _⟩
      good := by
        intro zdi mem
        apply (inv.good zdi mem).of_records
        · exact le_rfl
        · exact fun part _ _ => kept zdi mem part
        · exact fun _ busy => nomatch busy
        · exact fun _ busy => nomatch busy
      target := fun _ _ => ⟨⟨_, put_same zei.records 1 _, rfl, rfl, rfl⟩, numbered⟩
      current := fun cur here => (inv.current cur here).of_memory rfl rfl rfl rfl rfl
      clean := inv.clean
      agrees := by
        have same := views_of_records inv zei.categoryDirty
          fun zdi mem part _ _ => kept zdi mem part
        exact same ▸ inv.agrees }

/-- `zebraExplain_writeTarget`, once all parts have a record. -/
theorem writeTarget_spec (inv : zei.Inv yaz none) (writes : zei.writeFlag = true)
    (numbered : ∀ zdi ∈ zei.databaseInfo, ∀ part, (zei.memory zdi).sysnoOf part ≠ 0)
    (plain : ∀ sysno, ∀ one ∈ extracted sysno, one.Plain yaz)
    (run : writeTarget yaz zei keyFlush extracted = some next) :
    next.Inv yaz none ∧ Flushing zei next ∧
      (keyFlush = false → next.dirty = false ∧ next.memory = zei.memory) := by
  rw [writeTarget] at run
  split at run
  · obtain ⟨data, got, rest⟩ := bind_eq_some_iff.mp run
    obtain ⟨updated, update, same⟩ := bind_eq_some_iff.mp rest
    cases same
    have begunInv := inv.beginTarget writes
    obtain ⟨updatedInv, frame, unchanged⟩ := updateKeys_spec begunInv writes (plain _) update
    have numbered' : ∀ zdi ∈ updated.databaseInfo, ∀ part,
        (updated.memory zdi).sysnoOf part ≠ 0 := by
      intro zdi mem part
      rw [frame.sysno zdi part]
      exact numbered zdi (frame.databaseInfo ▸ mem) part
    refine ⟨updatedInv.endTarget numbered', ?_, ?_⟩
    · exact ⟨frame.databaseInfo, frame.writeFlag, fun zdi part => (frame.sysno zdi part).trans_ne⟩
    · intro still
      have same := unchanged still
      exact ⟨by rw [same], by rw [same]⟩
  · next clean =>
    cases run
    exact ⟨inv, Flushing.refl _, fun _ => ⟨Bool.eq_false_iff.mpr clean, rfl⟩⟩

def Clean (zei : ExplainInfo) : Prop :=
  zei.dirty = false ∧ ∀ zdi ∈ zei.databaseInfo, ∀ part, (zei.memory zdi).isDirty part = false

/-- `zebraExplain_flush` leaves everything in its record. -/
theorem flush_spec (inv : zei.Inv yaz none)
    (plain : ∀ sysno, ∀ one ∈ extracted sysno, one.Plain yaz)
    (run : flush yaz zei extracted = some next) : next.Inv yaz none ∧ Clean next := by
  rw [flush] at run
  split at run
  · next writes =>
    obtain ⟨first, databases, rest⟩ := bind_eq_some_iff.mp run
    obtain ⟨second, target, rest⟩ := bind_eq_some_iff.mp rest
    obtain ⟨third, categories, rest⟩ := bind_eq_some_iff.mp rest
    obtain ⟨fourth, databases', target'⟩ := bind_eq_some_iff.mp rest
    obtain ⟨firstInv, firstFlushing, firstNumbered, -⟩ :=
      writeDatabases_spec zei.databaseInfo inv writes (fun _ => id) plain databases
    have writes₁ := firstFlushing.writeFlag.trans writes
    rw [← firstFlushing.databaseInfo] at firstNumbered
    obtain ⟨secondInv, secondFlushing, -⟩ :=
      writeTarget_spec firstInv writes₁ firstNumbered plain target
    have writes₂ := secondFlushing.writeFlag.trans writes₁
    obtain ⟨thirdInv, thirdFlushing⟩ := writeCategoryList_spec secondInv writes₂ plain categories
    have writes₃ := thirdFlushing.writeFlag.trans writes₂
    obtain ⟨fourthInv, fourthFlushing, fourthNumbered, fourthClean⟩ :=
      writeDatabases_spec third.databaseInfo thirdInv writes₃ (fun _ => id) plain databases'
    have writes₄ := fourthFlushing.writeFlag.trans writes₃
    rw [← fourthFlushing.databaseInfo] at fourthNumbered
    obtain ⟨nextInv, nextFlushing, nextClean⟩ :=
      writeTarget_spec fourthInv writes₄ fourthNumbered plain target'
    obtain ⟨notDirty, memory⟩ := nextClean rfl
    refine ⟨nextInv, notDirty, ?_⟩
    intro zdi mem part
    rw [memory]
    apply (fourthClean rfl).2
    rw [← fourthFlushing.databaseInfo, ← nextFlushing.databaseInfo]
    exact mem
  · next readOnly =>
    cases run
    exact ⟨inv, inv.clean (Bool.eq_false_iff.mpr readOnly)⟩

end ExplainInfo

end Zebra.Explain
