import Zebra.Explain.Ledger

/-!
# What holds of the explain information

A database in memory and its two records agree unless a part has to be written, in which case only
memory is right, or has to be read, in which case only the record is.  Both together give the view
of the database that the history accounts for.
-/

namespace Zebra.Explain

namespace DatabaseInfo

/-- A part of a database is what its record says, unless it is still to be read. -/
def Matches (zdi : DatabaseInfo) (data : StoreData) : Part → Prop
  | .database => ∃ recordCount recordBytes ordinalDatabase,
      data = .database recordCount recordBytes ordinalDatabase ∧
        (zdi.readFlag = false → ordinalDatabase = zdi.ordinalDatabase)
  | .details => ∃ attrlist,
      data = .attributeDetails attrlist ∧
        (zdi.attributeDetails.readFlag = false →
          ((attrlist.filterMap SUInfo.readBack).map SUInfo.toIndex).Perm
            (zdi.attributeDetails.SUInfo.map SUInfo.toIndex))

/-- The number of a database, which the record has until it is read. -/
def ordinal (records : Records) (zdi : DatabaseInfo) : Nat :=
  if zdi.readFlag then
    match records.info zdi.sysno with
    | some (.database _ _ ordinalDatabase) => ordinalDatabase
    | _ => 0
  else
    zdi.ordinalDatabase

/-- The attributes of a database, which the record has until they are read. -/
def attributes (records : Records) (zdi : DatabaseInfo) : List SUInfo :=
  if zdi.attributeDetails.readFlag then
    match records.info zdi.attributeDetails.sysno with
    | some (.attributeDetails attrlist) => attrlist.filterMap SUInfo.readBack
    | _ => []
  else
    zdi.attributeDetails.SUInfo

def view (records : Records) (zdi : DatabaseInfo) : View where
  ordinal := zdi.ordinal records
  name := zdi.databaseName
  indexes := (zdi.attributes records).map SUInfo.toIndex

/-- A database and its records; a part that is being written is not yet in its record. -/
structure Good (records : Records) (busy : Part → Prop) (zdi : DatabaseInfo) : Prop where
  sysno_le : ∀ part, zdi.sysnoOf part ≤ records.indexLast
  there : ∀ part, zdi.sysnoOf part ≠ 0 → ¬busy part →
    ∃ data, records.info (zdi.sysnoOf part) = some data
  unread : ∀ part, zdi.isUnread part = true → zdi.isDirty part = false ∧ ¬busy part
  busy_sysno : ∀ part, busy part → zdi.sysnoOf part ≠ 0
  stored : ∀ part, zdi.isDirty part = false → ¬busy part →
    zdi.sysnoOf part ≠ 0 ∧
      ∃ data, records.info (zdi.sysnoOf part) = some data ∧ zdi.Matches data part

end DatabaseInfo

/-- What is written to a record of its own. -/
inductive Slot where
  | target
  | part (zdi : Nat) (part : Part)

namespace ExplainInfo

variable (yaz : Yaz)

def views (zei : ExplainInfo) : List View :=
  zei.databaseInfo.map fun zdi => (zei.memory zdi).view zei.records

def TargetStored (zei : ExplainInfo) : Prop :=
  (∃ target, zei.records.info 1 = some (.target (some target)) ∧
    target.databaseList = (zei.targetInfo yaz).databaseList ∧
    target.ordinalSU = zei.ordinalSU ∧ target.ordinalDatabase = zei.ordinalDatabase) ∧
  ∀ zdi ∈ zei.databaseInfo, ∀ part, (zei.memory zdi).sysnoOf part ≠ 0

/-- The current database: it has been read, and is there or has been removed. -/
structure Current (zei : ExplainInfo) (cur : Nat) : Prop where
  allocated : cur < zei.allocated
  read : ∀ part, (zei.memory cur).isUnread part = false
  ordinal_lt : (zei.memory cur).ordinalDatabase < zei.ordinalDatabase
  listed : cur ∈ zei.databaseInfo ∨ .removed (zei.memory cur).ordinalDatabase ∈ zei.log

/-- Each part of each database has a system number of its own, or none as yet. -/
structure Numbered (zei : ExplainInfo) : Prop where
  nodup : zei.databaseInfo.Nodup
  allocated : ∀ zdi ∈ zei.databaseInfo, zdi < zei.allocated
  apart : ∀ a ∈ zei.databaseInfo, ∀ b ∈ zei.databaseInfo, ∀ p q,
    (zei.memory a).sysnoOf p = (zei.memory b).sysnoOf q → (zei.memory a).sysnoOf p ≠ 0 →
      a = b ∧ p = q
  not_root : ∀ zdi ∈ zei.databaseInfo, ∀ part, (zei.memory zdi).sysnoOf part ≠ 1
  root : 1 ≤ zei.records.indexLast ∧ ∃ data, zei.records.info 1 = some data

/-- What holds at any time; `busy` is what is being written. -/
structure Inv (busy : Option Slot) (zei : ExplainInfo) : Prop where
  numbered : zei.Numbered
  good : ∀ zdi ∈ zei.databaseInfo,
    (zei.memory zdi).Good zei.records fun part => busy = some (.part zdi part)
  target : busy ≠ some .target → zei.dirty = false → zei.TargetStored yaz
  current : ∀ cur, zei.curDatabaseInfo = some cur → zei.Current cur
  clean : zei.writeFlag = false → zei.dirty = false ∧
    ∀ zdi ∈ zei.databaseInfo, ∀ part, (zei.memory zdi).isDirty part = false
  agrees : Agrees yaz.Plain zei.views zei.log zei.ordinalSU zei.ordinalDatabase

/-- What no extraction changes. -/
structure Frame (zei next : ExplainInfo) : Prop where
  databaseInfo : next.databaseInfo = zei.databaseInfo
  records : next.records = zei.records
  writeFlag : next.writeFlag = zei.writeFlag
  sysno : ∀ zdi part, (next.memory zdi).sysnoOf part = (zei.memory zdi).sysnoOf part
  name : ∀ zdi, (next.memory zdi).databaseName = (zei.memory zdi).databaseName
  dirty : zei.dirty = true → next.dirty = true
  read : ∀ zdi part, (zei.memory zdi).isUnread part = false →
    (next.memory zdi).isUnread part = false
  ordinal : ∀ zdi, (zei.memory zdi).readFlag = false →
    (next.memory zdi).ordinalDatabase = (zei.memory zdi).ordinalDatabase

variable {yaz}

theorem Frame.refl (zei : ExplainInfo) : Frame zei zei where
  databaseInfo := rfl
  records := rfl
  writeFlag := rfl
  sysno _ _ := rfl
  name _ := rfl
  dirty := id
  read _ _ := id
  ordinal _ _ := rfl

variable {zei next : ExplainInfo}

theorem Frame.trans {last : ExplainInfo} (first : Frame zei next)
    (second : Frame next last) : Frame zei last where
  databaseInfo := second.databaseInfo.trans first.databaseInfo
  records := second.records.trans first.records
  writeFlag := second.writeFlag.trans first.writeFlag
  sysno zdi part := (second.sysno zdi part).trans (first.sysno zdi part)
  name zdi := (second.name zdi).trans (first.name zdi)
  dirty := second.dirty ∘ first.dirty
  read zdi part := second.read zdi part ∘ first.read zdi part
  ordinal zdi read :=
    (second.ordinal zdi (first.read zdi .database read)).trans (first.ordinal zdi read)

theorem alike_views (same : next.databaseInfo = zei.databaseInfo)
    (alike : ∀ zdi ∈ zei.databaseInfo,
      ((zei.memory zdi).view zei.records).Alike ((next.memory zdi).view next.records)) :
    List.Forall₂ View.Alike zei.views next.views := by
  unfold views
  rw [same, List.forall₂_map_left_iff, List.forall₂_map_right_iff, List.forall₂_same]
  exact alike

@[simp]
theorem setDatabase_same (zei : ExplainInfo) (zdi : Nat) (info : DatabaseInfo) :
    (zei.setDatabase zdi info).memory zdi = info := by
  simp [setDatabase]

theorem setDatabase_other (zei : ExplainInfo) {zdi other : Nat} (info : DatabaseInfo)
    (apart : other ≠ zdi) : (zei.setDatabase zdi info).memory other = zei.memory other := by
  simp [setDatabase, apart]

theorem frame_setDatabase {zdi : Nat} {info : DatabaseInfo}
    (name : info.databaseName = (zei.memory zdi).databaseName)
    (sysno : ∀ part, info.sysnoOf part = (zei.memory zdi).sysnoOf part)
    (read : ∀ part, (zei.memory zdi).isUnread part = false → info.isUnread part = false)
    (ordinal : (zei.memory zdi).readFlag = false →
      info.ordinalDatabase = (zei.memory zdi).ordinalDatabase) :
    Frame zei (zei.setDatabase zdi info) where
  databaseInfo := rfl
  records := rfl
  writeFlag := rfl
  sysno other part := by
    rcases eq_or_ne other zdi with rfl | apart
    · rw [setDatabase_same]
      exact sysno part
    · rw [setDatabase_other zei info apart]
  name other := by
    rcases eq_or_ne other zdi with rfl | apart
    · rw [setDatabase_same]
      exact name
    · rw [setDatabase_other zei info apart]
  dirty := id
  read other part before := by
    rcases eq_or_ne other zdi with rfl | apart
    · rw [setDatabase_same]
      exact read part before
    · rw [setDatabase_other zei info apart]
      exact before
  ordinal other before := by
    rcases eq_or_ne other zdi with rfl | apart
    · rw [setDatabase_same]
      exact ordinal before
    · rw [setDatabase_other zei info apart]

theorem Numbered.frame (numbered : zei.Numbered)
    (frame : Frame zei next) (allocated : zei.allocated ≤ next.allocated) : next.Numbered where
  nodup := by
    rw [frame.databaseInfo]
    exact numbered.nodup
  allocated zdi mem :=
    (numbered.allocated zdi (frame.databaseInfo ▸ mem)).trans_le allocated
  apart a ha b hb p q same nonzero := by
    rw [frame.sysno a p] at same nonzero
    rw [frame.sysno b q] at same
    exact numbered.apart a (frame.databaseInfo ▸ ha) b (frame.databaseInfo ▸ hb) p q same nonzero
  not_root zdi mem part := by
    rw [frame.sysno zdi part]
    exact numbered.not_root zdi (frame.databaseInfo ▸ mem) part
  root := by
    rw [frame.records]
    exact numbered.root

theorem TargetStored.frame (stored : zei.TargetStored yaz)
    (frame : Frame zei next) (su : next.ordinalSU = zei.ordinalSU)
    (db : next.ordinalDatabase = zei.ordinalDatabase) : next.TargetStored yaz := by
  obtain ⟨⟨target, root, list, ordinalSU, ordinalDatabase⟩, numbered⟩ := stored
  have same : (next.targetInfo yaz).databaseList = (zei.targetInfo yaz).databaseList := by
    unfold targetInfo
    dsimp only
    rw [frame.databaseInfo]
    apply List.map_congr_left
    intro zdi _
    have database := frame.sysno zdi .database
    have details := frame.sysno zdi .details
    dsimp only [DatabaseInfo.sysnoOf] at database details
    rw [frame.name zdi, database, details]
  refine ⟨⟨target, ?_, list.trans same.symm, ordinalSU.trans su.symm,
    ordinalDatabase.trans db.symm⟩, ?_⟩
  · rw [frame.records]
    exact root
  · intro zdi mem part
    rw [frame.sysno zdi part]
    exact numbered zdi (frame.databaseInfo ▸ mem) part

/-- A database in memory becomes one that says the same. -/
theorem Inv.setDatabase {busy : Option Slot} (inv : zei.Inv yaz busy)
    {zdi : Nat} {info : DatabaseInfo} (name : info.databaseName = (zei.memory zdi).databaseName)
    (sysno : ∀ part, info.sysnoOf part = (zei.memory zdi).sysnoOf part)
    (read : ∀ part, (zei.memory zdi).isUnread part = false → info.isUnread part = false)
    (ordinal : (zei.memory zdi).readFlag = false →
      info.ordinalDatabase = (zei.memory zdi).ordinalDatabase)
    (clean : zei.writeFlag = false → ∀ part, (zei.memory zdi).isDirty part = false →
      info.isDirty part = false)
    (good : zdi ∈ zei.databaseInfo →
      info.Good zei.records (fun part => busy = some (.part zdi part)))
    (alike : zdi ∈ zei.databaseInfo →
      ((zei.memory zdi).view zei.records).Alike (info.view zei.records)) :
    (zei.setDatabase zdi info).Inv yaz busy := by
  have frame := frame_setDatabase name sysno read ordinal
  exact
    { numbered := inv.numbered.frame frame le_rfl
      good := by
        intro other mem
        rcases eq_or_ne other zdi with rfl | apart
        · rw [setDatabase_same]
          exact good mem
        · rw [setDatabase_other zei info apart]
          exact inv.good other mem
      target := fun idle notDirty => (inv.target idle notDirty).frame frame rfl rfl
      current := by
        intro cur here
        have before := inv.current cur here
        rcases eq_or_ne cur zdi with rfl | apart
        · have kept := ordinal (before.read .database)
          refine ⟨before.allocated, ?_, ?_, ?_⟩
          · intro part
            rw [setDatabase_same]
            exact read part (before.read part)
          · rw [setDatabase_same, kept]
            exact before.ordinal_lt
          · rw [setDatabase_same, kept]
            exact before.listed
        · refine ⟨before.allocated, ?_, ?_, ?_⟩ <;> rw [setDatabase_other zei info apart]
          · exact before.read
          · exact before.ordinal_lt
          · exact before.listed
      clean := by
        intro readOnly
        have before := inv.clean readOnly
        refine ⟨before.1, ?_⟩
        intro other mem part
        rcases eq_or_ne other zdi with rfl | apart
        · rw [setDatabase_same]
          exact clean readOnly part (before.2 other mem part)
        · rw [setDatabase_other zei info apart]
          exact before.2 other mem part
      agrees := by
        apply inv.agrees.congr
        apply alike_views frame.databaseInfo
        intro other mem
        rcases eq_or_ne other zdi with rfl | apart
        · rw [setDatabase_same]
          exact alike mem
        · rw [setDatabase_other zei info apart]
          exact View.Alike.refl _ }

end ExplainInfo

end Zebra.Explain
