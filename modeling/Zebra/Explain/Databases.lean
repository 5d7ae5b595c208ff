import Zebra.Explain.Extraction

/-!
# Creating and removing databases

A database is created in memory only, with its two parts still to be written.  When one is removed
its records are deleted first, between two extractions that still find it in the list.
-/

namespace Zebra.Explain

open List Records DatabaseInfo

namespace DatabaseInfo

variable {records others : Records} {busy busy' : Part → Prop} {zdi : DatabaseInfo}

/-- Only the records of the parts of a database matter to it. -/
theorem Good.of_records (good : zdi.Good records busy) (last : records.indexLast ≤ others.indexLast)
    (same : ∀ part, zdi.sysnoOf part ≠ 0 → ¬busy' part →
      others.info (zdi.sysnoOf part) = records.info (zdi.sysnoOf part))
    (more : ∀ part, busy part → busy' part)
    (writable : ∀ part, busy' part → zdi.sysnoOf part ≠ 0 ∧ zdi.isUnread part = false) :
    zdi.Good others busy' where
  sysno_le part := (good.sysno_le part).trans last
  there part numbered idle := by
    rw [same part numbered idle]
    exact good.there part numbered (idle ∘ more part)
  unread part unread :=
    ⟨(good.unread part unread).1, fun writing =>
      Bool.false_ne_true ((writable part writing).2.symm.trans unread)⟩
  busy_sysno part writing := (writable part writing).1
  stored part written idle := by
    obtain ⟨numbered, data, here, content⟩ := good.stored part written (idle ∘ more part)
    exact ⟨numbered, data, (same part numbered idle).trans here, content⟩

theorem view_of_records (good : zdi.Good records busy)
    (same : ∀ part, zdi.sysnoOf part ≠ 0 → zdi.isUnread part = true →
      others.info (zdi.sysnoOf part) = records.info (zdi.sysnoOf part)) :
    zdi.view others = zdi.view records := by
  have numbered (part : Part) (unread : zdi.isUnread part = true) : zdi.sysnoOf part ≠ 0 :=
    (good.stored part (good.unread part unread).1 (good.unread part unread).2).1
  have ordinal : zdi.ordinal others = zdi.ordinal records := by
    unfold ordinal
    split
    · next unread =>
      have kept := same .database (numbered .database unread) unread
      dsimp only [sysnoOf] at kept
      rw [kept]
    · rfl
  have attributes : zdi.attributes others = zdi.attributes records := by
    unfold attributes
    split
    · next unread =>
      have kept := same .details (numbered .details unread) unread
      dsimp only [sysnoOf] at kept
      rw [kept]
    · rfl
  unfold view
  rw [ordinal, attributes]

end DatabaseInfo

namespace ExplainInfo

variable {yaz : Yaz} {zei : ExplainInfo} {others : Records}

theorem Numbered.of_records (numbered : zei.Numbered) (categoryDirty : Bool)
    (last : zei.records.indexLast ≤ others.indexLast) (root : ∃ data, others.info 1 = some data) :
    { zei with records := others, categoryDirty := categoryDirty }.Numbered where
  nodup := numbered.nodup
  allocated := numbered.allocated
  apart := numbered.apart
  not_root := numbered.not_root
  root := ⟨numbered.root.1.trans last, root⟩

theorem Numbered.root_of_same (numbered : zei.Numbered)
    (root : others.info 1 = zei.records.info 1) : ∃ data, others.info 1 = some data := by
  obtain ⟨data, here⟩ := numbered.root.2
  exact ⟨data, root.trans here⟩

theorem TargetStored.of_records (stored : zei.TargetStored yaz) (categoryDirty : Bool)
    (root : others.info 1 = zei.records.info 1) :
    { zei with records := others, categoryDirty := categoryDirty }.TargetStored yaz := by
  obtain ⟨⟨target, here, rest⟩, nonzero⟩ := stored
  exact ⟨⟨target, root.trans here, rest⟩, nonzero⟩

theorem Current.of_memory {next : ExplainInfo} {cur : Nat} (current : zei.Current cur)
    (memory : next.memory = zei.memory) (allocated : next.allocated = zei.allocated)
    (ordinal : next.ordinalDatabase = zei.ordinalDatabase)
    (databaseInfo : next.databaseInfo = zei.databaseInfo) (log : next.log = zei.log) :
    next.Current cur where
  allocated := allocated ▸ current.allocated
  read := memory ▸ current.read
  ordinal_lt := by
    rw [memory, ordinal]
    exact current.ordinal_lt
  listed := by
    rw [memory, databaseInfo, log]
    exact current.listed

/-- Only the records of what is unread matter to what the databases say. -/
theorem views_of_records {busy : Option Slot} (inv : zei.Inv yaz busy) (categoryDirty : Bool)
    (kept : ∀ zdi ∈ zei.databaseInfo, ∀ part, (zei.memory zdi).sysnoOf part ≠ 0 →
      (zei.memory zdi).isUnread part = true →
        others.info ((zei.memory zdi).sysnoOf part) =
          zei.records.info ((zei.memory zdi).sysnoOf part)) :
    { zei with records := others, categoryDirty := categoryDirty }.views = zei.views := by
  apply map_congr_left
  intro zdi mem
  exact view_of_records (inv.good zdi mem) (kept zdi mem)

end ExplainInfo

@[simp]
theorem Records.put_same (records : Records) (sysno : Nat) (data : StoreData) :
    (records.put sysno data).info sysno = some data := by
  simp [put]

theorem Records.put_other (records : Records) {sysno other : Nat} (data : StoreData)
    (apart : other ≠ sysno) : (records.put sysno data).info other = records.info other := by
  simp [put, apart]

theorem Records.del_other (records : Records) {sysno other : Nat} (apart : other ≠ sysno) :
    (records.del sysno).info other = records.info other := by
  simp [del, apart]

theorem Records.new_other (records : Records) {other : Nat} (earlier : other ≤ records.indexLast) :
    records.new.2.info other = records.info other := by
  have apart : other ≠ records.indexLast + 1 := by omega
  simp [new, apart]

namespace ExplainInfo

variable {yaz : Yaz} {busy : Option Slot} {zei next : ExplainInfo}

def withDatabase (zei : ExplainInfo) (database : List Byte) : ExplainInfo :=
  { zei.setDatabase zei.allocated (zei.newInfo database) with
    databaseInfo := zei.allocated :: zei.databaseInfo
    allocated := zei.allocated + 1
    ordinalDatabase := zei.ordinalDatabase + 1
    curDatabaseInfo := some zei.allocated
    dirty := true
    log := zei.log ++ [.created zei.ordinalDatabase (databaseN database)] }

theorem withDatabase_same (zei : ExplainInfo) (database : List Byte) :
    (zei.withDatabase database).memory zei.allocated = zei.newInfo database :=
  setDatabase_same zei zei.allocated _

theorem withDatabase_other (zei : ExplainInfo) (database : List Byte) {zdi : Nat}
    (earlier : zdi < zei.allocated) : (zei.withDatabase database).memory zdi = zei.memory zdi :=
  setDatabase_other zei _ (Nat.ne_of_lt earlier)

theorem newInfo_sysnoOf (zei : ExplainInfo) (database : List Byte) (part : Part) :
    (zei.newInfo database).sysnoOf part = 0 := by
  cases part <;> rfl

theorem newInfo_isDirty (zei : ExplainInfo) (database : List Byte) (part : Part) :
    (zei.newInfo database).isDirty part = true := by
  cases part <;> rfl

theorem newInfo_isUnread (zei : ExplainInfo) (database : List Byte) (part : Part) :
    (zei.newInfo database).isUnread part = false := by
  cases part <;> rfl

theorem numbered_withDatabase (numbered : zei.Numbered) (database : List Byte) :
    (zei.withDatabase database).Numbered where
  nodup := by
    apply nodup_cons.mpr
    exact ⟨fun mem => absurd (numbered.allocated _ mem) (Nat.lt_irrefl _), numbered.nodup⟩
  allocated zdi mem := by
    rcases mem_cons.mp mem with rfl | mem
    · exact Nat.lt_succ_self _
    · exact Nat.lt_succ_of_lt (numbered.allocated zdi mem)
  apart a ha b hb p q same nonzero := by
    rcases mem_cons.mp ha with rfl | ha
    · rw [withDatabase_same, newInfo_sysnoOf] at nonzero
      exact absurd rfl nonzero
    · rw [withDatabase_other zei database (numbered.allocated a ha)] at same nonzero
      rcases mem_cons.mp hb with rfl | hb
      · rw [withDatabase_same, newInfo_sysnoOf] at same
        exact absurd same nonzero
      · rw [withDatabase_other zei database (numbered.allocated b hb)] at same
        exact numbered.apart a ha b hb p q same nonzero
  not_root zdi mem part := by
    rcases mem_cons.mp mem with rfl | mem
    · rw [withDatabase_same, newInfo_sysnoOf]
      exact Nat.zero_ne_one
    · rw [withDatabase_other zei database (numbered.allocated zdi mem)]
      exact numbered.not_root zdi mem part
  root := numbered.root

theorem views_withDatabase (numbered : zei.Numbered) (database : List Byte) :
    (zei.withDatabase database).views =
      ⟨zei.ordinalDatabase, databaseN database, []⟩ :: zei.views := by
  have first : (zei.withDatabase database).views =
      ((zei.withDatabase database).memory zei.allocated).view zei.records ::
        zei.databaseInfo.map fun zdi =>
          ((zei.withDatabase database).memory zdi).view zei.records := rfl
  rw [first, withDatabase_same]
  congr 1
  apply map_congr_left
  intro zdi mem
  rw [withDatabase_other zei database (numbered.allocated zdi mem)]

theorem Inv.withDatabase (inv : zei.Inv yaz busy) (idle : ∀ zdi part, busy ≠ some (.part zdi part))
    (writes : zei.writeFlag = true) {database : List Byte} (name : yaz.Plain (databaseN database)) :
    (zei.withDatabase database).Inv yaz none where
  numbered := numbered_withDatabase inv.numbered database
  good zdi mem := by
    rcases mem_cons.mp mem with rfl | mem
    · rw [withDatabase_same]
      exact
        { sysno_le := fun part => (newInfo_sysnoOf zei database part).trans_le (Nat.zero_le _)
          there := fun part numbered => absurd (newInfo_sysnoOf zei database part) numbered
          unread := fun part unread =>
            absurd ((newInfo_isUnread zei database part).symm.trans unread) Bool.false_ne_true
          busy_sysno := fun part writing => nomatch writing
          stored := fun part written =>
            absurd (written.symm.trans (newInfo_isDirty zei database part)) Bool.false_ne_true }
    · rw [withDatabase_other zei database (inv.numbered.allocated zdi mem)]
      apply (inv.good zdi mem).of_records
      · exact le_rfl
      · exact fun _ _ _ => rfl
      · exact fun part writing => absurd writing (idle zdi part)
      · exact fun part writing => nomatch writing
  target _ notDirty := nomatch notDirty
  current cur here := by
    cases here
    refine ⟨Nat.lt_succ_self _, ?_, ?_, .inl mem_cons_self⟩
    · intro part
      rw [withDatabase_same]
      exact newInfo_isUnread zei database part
    · rw [withDatabase_same]
      exact Nat.lt_succ_self _
  clean readOnly := absurd (readOnly.symm.trans writes) Bool.false_ne_true
  agrees := by
    rw [views_withDatabase inv.numbered]
    exact inv.agrees.create name

/-- `zebraExplain_newDatabase`. -/
theorem newDatabase_spec (inv : zei.Inv yaz none) (writes : zei.writeFlag = true)
    {database : List Byte} (name : yaz.Plain (databaseN database)) :
    (zei.newDatabase database).2.Inv yaz none := by
  rw [newDatabase]
  split
  · exact inv
  · exact inv.withDatabase (fun _ _ h => nomatch h) writes name

/-- A part of the current database loses its record; it counts as being written from then on. -/
theorem Inv.del (inv : zei.Inv yaz none) {zdi : Nat} {part : Part} (mem : zdi ∈ zei.databaseInfo)
    (numbered : (zei.memory zdi).sysnoOf part ≠ 0) (read : (zei.memory zdi).isUnread part = false) :
    { zei with records := zei.records.del ((zei.memory zdi).sysnoOf part) }.Inv yaz
      (some (.part zdi part)) := by
  have kept (other : Nat) (listed : other ∈ zei.databaseInfo) (q : Part)
      (nonzero : (zei.memory other).sysnoOf q ≠ 0) (apart : ¬(other = zdi ∧ q = part)) :
      (zei.records.del ((zei.memory zdi).sysnoOf part)).info ((zei.memory other).sysnoOf q) =
        zei.records.info ((zei.memory other).sysnoOf q) := by
    apply del_other
    intro same
    exact apart (inv.numbered.apart other listed zdi mem q part same nonzero)
  have root : (zei.records.del ((zei.memory zdi).sysnoOf part)).info 1 = zei.records.info 1 :=
    del_other zei.records (inv.numbered.not_root zdi mem part).symm
  exact
    { numbered := inv.numbered.of_records zei.categoryDirty le_rfl (inv.numbered.root_of_same root)
      good := by
        intro other listed
        apply (inv.good other listed).of_records
        · exact le_rfl
        · intro q nonzero idle
          apply kept other listed q nonzero
          rintro ⟨rfl, rfl⟩
          exact idle rfl
        · exact fun q writing => nomatch writing
        · rintro q writing
          cases writing
          exact ⟨numbered, read⟩
      target := fun _ notDirty =>
        (inv.target (fun h => nomatch h) notDirty).of_records zei.categoryDirty root
      current := fun cur here => (inv.current cur here).of_memory rfl rfl rfl rfl rfl
      clean := inv.clean
      agrees := by
        have same := views_of_records inv zei.categoryDirty
          fun other listed q nonzero unread => kept other listed q nonzero (by
            rintro ⟨rfl, rfl⟩
            exact Bool.false_ne_true (read.symm.trans unread))
        exact same ▸ inv.agrees }

/-- A database has left the list, with the record of its second part. -/
def withoutDatabase (zei : ExplainInfo) (zdi sysno ordinal : Nat) : ExplainInfo :=
  { zei with
    records := zei.records.del sysno
    databaseInfo := zei.databaseInfo.erase zdi
    log := zei.log ++ [.removed ordinal] }

theorem Inv.withoutDatabase {part : Part} {zdi : Nat}
    (inv : zei.Inv yaz (some (.part zdi part))) (writes : zei.writeFlag = true)
    (dirty : zei.dirty = true) (mem : zdi ∈ zei.databaseInfo)
    (numbered : (zei.memory zdi).sysnoOf .database ≠ 0) (read : (zei.memory zdi).readFlag = false) :
    (zei.withoutDatabase zdi ((zei.memory zdi).sysnoOf .database)
      (zei.memory zdi).ordinalDatabase).Inv yaz none := by
  have mem_iff (other : Nat) :
      other ∈ zei.databaseInfo.erase zdi ↔ other ≠ zdi ∧ other ∈ zei.databaseInfo :=
    inv.numbered.nodup.mem_erase_iff
  have kept (other : Nat) (listed : other ∈ zei.databaseInfo.erase zdi) (q : Part)
      (nonzero : (zei.memory other).sysnoOf q ≠ 0) :
      (zei.records.del ((zei.memory zdi).sysnoOf .database)).info
        ((zei.memory other).sysnoOf q) = zei.records.info ((zei.memory other).sysnoOf q) := by
    obtain ⟨apart, there⟩ := (mem_iff other).mp listed
    apply del_other
    intro same
    exact apart (inv.numbered.apart other there zdi mem q .database same nonzero).1
  have root : (zei.records.del ((zei.memory zdi).sysnoOf .database)).info 1 = zei.records.info 1 :=
    del_other zei.records (inv.numbered.not_root zdi mem .database).symm
  have ordinal := ordinal_of_read zei.records read
  exact
    { numbered :=
        { nodup := inv.numbered.nodup.erase zdi
          allocated := fun other listed => inv.numbered.allocated other (mem_of_mem_erase listed)
          apart := fun a ha b hb =>
            inv.numbered.apart a (mem_of_mem_erase ha) b (mem_of_mem_erase hb)
          not_root := fun other listed => inv.numbered.not_root other (mem_of_mem_erase listed)
          root := ⟨inv.numbered.root.1, inv.numbered.root_of_same root⟩ }
      good := by
        intro other listed
        obtain ⟨apart, there⟩ := (mem_iff other).mp listed
        apply (inv.good other there).of_records
        · exact le_rfl
        · exact fun q nonzero _ => kept other listed q nonzero
        · intro q writing
          cases writing
          exact absurd rfl apart
        · exact fun q writing => nomatch writing
      target := fun _ notDirty => absurd (notDirty.symm.trans dirty) Bool.false_ne_true
      current := by
        intro cur here
        have current := inv.current cur here
        refine ⟨current.allocated, current.read, current.ordinal_lt, ?_⟩
        rcases current.listed with listed | removed
        · rcases eq_or_ne cur zdi with rfl | apart
          · exact .inr (mem_append_right _ mem_cons_self)
          · exact .inl ((mem_iff cur).mpr ⟨apart, listed⟩)
        · exact .inr (mem_append_left _ removed)
      clean := fun readOnly => absurd (readOnly.symm.trans writes) Bool.false_ne_true
      agrees := by
        have views : (zei.withoutDatabase zdi ((zei.memory zdi).sysnoOf .database)
            (zei.memory zdi).ordinalDatabase).views =
            zei.views.filter (·.ordinal != (zei.memory zdi).ordinalDatabase) := by
          rw [ExplainInfo.views, ExplainInfo.views, filter_map]
          have list : (zei.withoutDatabase zdi ((zei.memory zdi).sysnoOf .database)
              (zei.memory zdi).ordinalDatabase).databaseInfo =
              zei.databaseInfo.filter ((·.ordinal != (zei.memory zdi).ordinalDatabase) ∘
                fun other => (zei.memory other).view zei.records) := by
            have erased : zei.databaseInfo.erase zdi = zei.databaseInfo.filter (· != zdi) :=
              inv.numbered.nodup.erase_eq_filter zdi
            refine erased.trans (filter_congr ?_)
            intro other listed
            have twice := inv.agrees.apart
            rw [ExplainInfo.views, map_map] at twice
            rw [Function.comp_apply, ← ordinal, Bool.eq_iff_iff, bne_iff_ne, bne_iff_ne]
            constructor
            · intro apart same
              exact apart (inj_on_of_nodup_map twice listed mem same)
            · rintro apart rfl
              exact apart rfl
          rw [← list]
          apply map_congr_left
          intro other listed
          have there := ((mem_iff other).mp listed).2
          apply view_of_records (inv.good other there)
          exact fun q nonzero _ => kept other listed q nonzero
        rw [views]
        apply inv.agrees.remove
        rw [← ordinal]
        exact inv.agrees.ordinal_lt (mem_views mem) }

theorem Records.get_ne_zero {records : Records} {sysno : Nat} {data : StoreData}
    (got : records.get sysno = some data) : sysno ≠ 0 := by
  rintro rfl
  cases got

theorem frame_touch (zei : ExplainInfo) {dirty : Bool} (runNumber : Int)
    (more : zei.dirty = true → dirty = true) :
    Frame zei { zei with dirty := dirty, runNumber := runNumber } where
  databaseInfo := rfl
  records := rfl
  writeFlag := rfl
  sysno _ _ := rfl
  name _ := rfl
  dirty := more
  read _ _ := id
  ordinal _ _ := rfl

theorem Inv.touch (inv : zei.Inv yaz none) (writes : zei.writeFlag = true) {dirty : Bool}
    (runNumber : Int) (more : zei.dirty = true → dirty = true) :
    { zei with dirty := dirty, runNumber := runNumber }.Inv yaz none where
  numbered := inv.numbered.frame (frame_touch zei runNumber more) le_rfl
  good := inv.good
  target idle notDirty := by
    have before : zei.dirty = false := by
      cases known : zei.dirty with
      | false => rfl
      | true => exact (more known).symm.trans notDirty
    exact (inv.target idle before).frame (frame_touch zei runNumber more) rfl rfl
  current cur here := (inv.current cur here).of_memory rfl rfl rfl rfl rfl
  clean readOnly := absurd (readOnly.symm.trans writes) Bool.false_ne_true
  agrees := inv.agrees

/-- `zebraExplain_removeDatabase`. -/
theorem removeDatabase_spec (inv : zei.Inv yaz none) (writes : zei.writeFlag = true)
    {extracted : Nat → List Extracted} (plain : ∀ sysno, ∀ one ∈ extracted sysno, one.Plain yaz)
    {there : Bool} (run : zei.removeDatabase yaz extracted = some (there, next)) :
    next.Inv yaz none := by
  rw [removeDatabase] at run
  split at run
  · cases run
    exact inv
  · next zdi current =>
    obtain ⟨here, listed⟩ := Option.filter_eq_some_iff.mp current
    have mem : zdi ∈ zei.databaseInfo := of_decide_eq_true listed
    have read := (inv.current zdi here).read
    obtain ⟨data, got, rest⟩ := Option.bind_eq_some_iff.mp run
    obtain ⟨first, update, rest⟩ := Option.bind_eq_some_iff.mp rest
    obtain ⟨data', got', rest⟩ := Option.bind_eq_some_iff.mp rest
    obtain ⟨second, update', rest⟩ := Option.bind_eq_some_iff.mp rest
    cases rest
    have touched := inv.touch writes zei.runNumber (fun _ => rfl : zei.dirty = true → true = true)
    obtain ⟨firstInv, firstFrame⟩ := updateFunc_spec touched writes (plain _) update
    have firstMem : zdi ∈ first.databaseInfo := firstFrame.databaseInfo ▸ mem
    have firstRead := firstFrame.read zdi .details (read .details)
    have details : (first.memory zdi).sysnoOf .details = (zei.memory zdi).sysnoOf .details :=
      firstFrame.sysno zdi .details
    have deletedInv := firstInv.del firstMem (details.trans_ne (Records.get_ne_zero got)) firstRead
    rw [details] at deletedInv
    have firstWrites : first.writeFlag = true := firstFrame.writeFlag.trans writes
    obtain ⟨secondInv, secondFrame⟩ := updateFunc_spec deletedInv firstWrites (plain _) update'
    have database : (second.memory zdi).sysnoOf .database = (zei.memory zdi).sysnoOf .database :=
      (secondFrame.sysno zdi .database).trans (firstFrame.sysno zdi .database)
    have ordinal : (second.memory zdi).ordinalDatabase = (zei.memory zdi).ordinalDatabase :=
      (secondFrame.ordinal zdi (firstFrame.read zdi .database (read .database))).trans
        (firstFrame.ordinal zdi (read .database))
    have removed := secondInv.withoutDatabase (secondFrame.writeFlag.trans firstWrites)
      (secondFrame.dirty (firstFrame.dirty rfl)) (secondFrame.databaseInfo ▸ firstMem)
      (database.trans_ne (Records.get_ne_zero got'))
      (secondFrame.read zdi .database (firstFrame.read zdi .database (read .database)))
    rw [database, ordinal] at removed
    exact removed

end ExplainInfo

end Zebra.Explain
