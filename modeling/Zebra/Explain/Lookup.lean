import Zebra.Explain.Invariant

/-!
# Reading and looking up

Reading a part of a database and moving an attribute to the front of its list leave the view of the
database as it is, but for the order of its indexes.
-/

namespace Zebra.Explain

open Option DatabaseInfo SUInfo

section

variable {α : Type} {p : α → Bool}

theorem takeOut_perm {xs others : List α} {x : α} (found : takeOut p xs = some (x, others)) :
    (x :: others).Perm xs ∧ p x = true := by
  induction xs generalizing others with
  | nil => cases found
  | cons y ys ih =>
    rw [takeOut] at found
    split at found
    · next here =>
      cases found
      exact ⟨List.Perm.refl _, here⟩
    · obtain ⟨⟨z, rest⟩, further, same⟩ := map_eq_some_iff.mp found
      cases same
      obtain ⟨perm, holds⟩ := ih further
      exact ⟨(List.Perm.swap y _ rest).trans (perm.cons y), holds⟩

theorem takeOut_none {xs : List α} (missing : takeOut p xs = none) : ∀ x ∈ xs, p x = false := by
  induction xs with
  | nil =>
    intro x mem
    cases mem
  | cons y ys ih =>
    rw [takeOut] at missing
    split at missing
    · cases missing
    · next other =>
      intro x mem
      rcases List.mem_cons.mp mem with rfl | mem
      · exact Bool.eq_false_iff.mpr other
      · exact ih (map_eq_none_iff.mp missing) x mem

end

namespace DatabaseInfo

variable {records : Records} {busy : Part → Prop} {zdi : DatabaseInfo}

def withDetails (zdi : DatabaseInfo) (attrlist : List SUInfo) : DatabaseInfo :=
  { zdi with
    attributeDetails := { zdi.attributeDetails with
      SUInfo := attrlist.filterMap SUInfo.readBack
      readFlag := false } }

def withDatabase (zdi : DatabaseInfo) (recordCount recordBytes : Int) (ordinalDatabase : Nat) :
    DatabaseInfo :=
  { zdi with
    recordCount := recordCount
    recordBytes := recordBytes
    ordinalDatabase := ordinalDatabase
    readFlag := false }

/-- A database changes in memory but for its system numbers, and no part becomes unread. -/
theorem Good.update {other : DatabaseInfo} (good : zdi.Good records busy)
    (sysno : ∀ part, other.sysnoOf part = zdi.sysnoOf part)
    (unread : ∀ part, other.isUnread part = true → zdi.isUnread part = true ∧
      (zdi.isDirty part = false → other.isDirty part = false))
    (stored : ∀ part, other.isDirty part = false → ¬busy part → zdi.sysnoOf part ≠ 0 ∧
      ∃ data, records.info (zdi.sysnoOf part) = some data ∧ other.Matches data part) :
    other.Good records busy where
  sysno_le part := (sysno part).trans_le (good.sysno_le part)
  there part := by
    rw [sysno]
    exact good.there part
  unread part now := by
    obtain ⟨before, kept⟩ := unread part now
    exact ⟨kept (good.unread part before).1, (good.unread part before).2⟩
  busy_sysno part := by
    rw [sysno]
    exact good.busy_sysno part
  stored part := by
    rw [sysno]
    exact stored part

theorem Good.withDetails (good : zdi.Good records busy) {attrlist : List SUInfo}
    (here : records.info zdi.attributeDetails.sysno = some (.attributeDetails attrlist)) :
    (zdi.withDetails attrlist).Good records busy := by
  apply good.update
  · rintro (_ | _) <;> rfl
  · rintro (_ | _) unread
    · exact ⟨unread, id⟩
    · exact nomatch unread
  · rintro (_ | _) written idle
    · exact good.stored .database written idle
    · have numbered := (good.stored .details written idle).1
      exact ⟨numbered, _, here, attrlist, rfl, fun _ => List.Perm.refl _⟩

theorem view_withDetails {attrlist : List SUInfo} (unread : zdi.attributeDetails.readFlag = true)
    (here : records.info zdi.attributeDetails.sysno = some (.attributeDetails attrlist)) :
    (zdi.withDetails attrlist).view records = zdi.view records := by
  have same : (zdi.withDetails attrlist).attributes records = zdi.attributes records := by
    simp [attributes, withDetails, unread, here]
  unfold view
  rw [same]
  rfl

theorem Good.withDatabase (good : zdi.Good records busy) {recordCount recordBytes : Int}
    {ordinalDatabase : Nat}
    (here : records.info zdi.sysno = some (.database recordCount recordBytes ordinalDatabase)) :
    (zdi.withDatabase recordCount recordBytes ordinalDatabase).Good records busy := by
  apply good.update
  · rintro (_ | _) <;> rfl
  · rintro (_ | _) unread
    · exact nomatch unread
    · exact ⟨unread, id⟩
  · rintro (_ | _) written idle
    · have numbered := (good.stored .database written idle).1
      exact ⟨numbered, _, here, _, _, _, rfl, fun _ => rfl⟩
    · exact good.stored .details written idle

theorem view_withDatabase {recordCount recordBytes : Int} {ordinalDatabase : Nat}
    (unread : zdi.readFlag = true)
    (here : records.info zdi.sysno = some (.database recordCount recordBytes ordinalDatabase)) :
    (zdi.withDatabase recordCount recordBytes ordinalDatabase).view records =
      zdi.view records := by
  have same : (zdi.withDatabase recordCount recordBytes ordinalDatabase).ordinal records =
      zdi.ordinal records := by
    simp [ordinal, withDatabase, unread, here]
  unfold view
  rw [same]
  rfl

theorem Good.setSUInfo (good : zdi.Good records busy) (read : zdi.attributeDetails.readFlag = false)
    {sui : List SUInfo} {dirtyMark : Bool}
    (perm : (sui.map toIndex).Perm (zdi.attributeDetails.SUInfo.map toIndex)) :
    (zdi.setSUInfo sui dirtyMark).Good records busy := by
  apply good.update
  · rintro (_ | _) <;> rfl
  · rintro (_ | _) unread
    · exact ⟨unread, id⟩
    · exact absurd (read.symm.trans unread) Bool.false_ne_true
  · rintro (_ | _) written idle
    · exact good.stored .database written idle
    · have before : zdi.attributeDetails.dirty = false := (Bool.or_eq_false_iff.mp written).1
      obtain ⟨numbered, data, here, attrlist, content, same⟩ := good.stored .details before idle
      exact ⟨numbered, data, here, attrlist, content, fun _ => (same read).trans perm.symm⟩

theorem view_setSUInfo (read : zdi.attributeDetails.readFlag = false) {sui : List SUInfo}
    {dirtyMark : Bool}
    (perm : (sui.map toIndex).Perm (zdi.attributeDetails.SUInfo.map toIndex)) :
    (zdi.view records).Alike ((zdi.setSUInfo sui dirtyMark).view records) where
  ordinal := rfl
  name := rfl
  indexes := by
    have old : zdi.attributes records = zdi.attributeDetails.SUInfo := by
      simp [attributes, read]
    have new : (zdi.setSUInfo sui dirtyMark).attributes records = sui := by
      simp [attributes, setSUInfo, read]
    unfold view
    dsimp only
    rw [old, new]
    exact perm

theorem Good.counts (good : zdi.Good records busy) (read : zdi.readFlag = false)
    (recordCount recordBytes : Int) :
    Good records busy
      { zdi with recordCount := recordCount, recordBytes := recordBytes, dirty := true } := by
  apply good.update
  · rintro (_ | _) <;> rfl
  · rintro (_ | _) unread
    · exact absurd (read.symm.trans unread) Bool.false_ne_true
    · exact ⟨unread, id⟩
  · rintro (_ | _) written idle
    · exact nomatch written
    · exact good.stored .details written idle

end DatabaseInfo

namespace ExplainInfo

variable {yaz : Yaz} {busy : Option Slot} {zei next : ExplainInfo}

/-- Nothing but memory changes, which goes on to say the same. -/
structure InMemory (zei next : ExplainInfo) : Prop where
  frame : Frame zei next
  eq : next = { zei with memory := next.memory }
  alike : ∀ zdi ∈ zei.databaseInfo,
    ((zei.memory zdi).view zei.records).Alike ((next.memory zdi).view next.records)

theorem InMemory.refl (zei : ExplainInfo) : InMemory zei zei where
  frame := Frame.refl zei
  eq := rfl
  alike _ _ := View.Alike.refl _

theorem InMemory.trans {last : ExplainInfo} (first : InMemory zei next)
    (second : InMemory next last) : InMemory zei last where
  frame := first.frame.trans second.frame
  eq := by
    rw [second.eq, first.eq]
  alike zdi mem :=
    (first.alike zdi mem).trans (second.alike zdi (first.frame.databaseInfo ▸ mem))

variable {zdi : Nat}

theorem inMemory_setDatabase {info : DatabaseInfo}
    (name : info.databaseName = (zei.memory zdi).databaseName)
    (sysno : ∀ part, info.sysnoOf part = (zei.memory zdi).sysnoOf part)
    (read : ∀ part, (zei.memory zdi).isUnread part = false → info.isUnread part = false)
    (ordinal : (zei.memory zdi).readFlag = false →
      info.ordinalDatabase = (zei.memory zdi).ordinalDatabase)
    (alike : ((zei.memory zdi).view zei.records).Alike (info.view zei.records)) :
    InMemory zei (zei.setDatabase zdi info) where
  frame := frame_setDatabase name sysno read ordinal
  eq := rfl
  alike other _ := by
    rcases eq_or_ne other zdi with rfl | apart
    · rw [setDatabase_same]
      exact alike
    · rw [setDatabase_other zei info apart]
      exact View.Alike.refl _

theorem readAttributeDetails_eq {attrlist : List SUInfo}
    (numbered : (zei.memory zdi).attributeDetails.sysno ≠ 0)
    (here : zei.records.info (zei.memory zdi).attributeDetails.sysno =
      some (.attributeDetails attrlist)) :
    zei.readAttributeDetails zdi =
      some (zei.setDatabase zdi ((zei.memory zdi).withDetails attrlist)) := by
  have got : zei.records.get (zei.memory zdi).attributeDetails.sysno =
      some (.attributeDetails attrlist) := by
    rw [Records.get, if_neg numbered, here]
  simp only [readAttributeDetails, got]
  rfl

theorem readDatabase_eq {recordCount recordBytes : Int} {ordinalDatabase : Nat}
    (numbered : (zei.memory zdi).sysno ≠ 0)
    (here : zei.records.info (zei.memory zdi).sysno =
      some (.database recordCount recordBytes ordinalDatabase)) :
    zei.readDatabase zdi = some (zei.setDatabase zdi
      ((zei.memory zdi).withDatabase recordCount recordBytes ordinalDatabase)) := by
  have got : zei.records.get (zei.memory zdi).sysno =
      some (.database recordCount recordBytes ordinalDatabase) := by
    rw [Records.get, if_neg numbered, here]
  simp only [readDatabase, got]
  rfl

theorem needAttributeDetails_spec (inv : zei.Inv yaz busy) (mem : zdi ∈ zei.databaseInfo) :
    ∃ next, zei.needAttributeDetails zdi = some next ∧ next.Inv yaz busy ∧ InMemory zei next ∧
      (next.memory zdi).attributeDetails.readFlag = false := by
  rw [needAttributeDetails]
  split
  · next unread =>
    have good := inv.good zdi mem
    obtain ⟨written, idle⟩ := good.unread .details unread
    obtain ⟨numbered, data, here, attrlist, rfl, -⟩ := good.stored .details written idle
    have alike : ((zei.memory zdi).view zei.records).Alike
        (((zei.memory zdi).withDetails attrlist).view zei.records) := by
      rw [view_withDetails unread here]
      exact View.Alike.refl _
    refine ⟨_, readAttributeDetails_eq numbered here, ?_, ?_, ?_⟩
    · apply inv.setDatabase
      · rfl
      · rintro (_ | _) <;> rfl
      · rintro (_ | _) before
        · exact before
        · rfl
      · exact fun _ => rfl
      · rintro - (_ | _) before <;> exact before
      · exact fun _ => good.withDetails here
      · exact fun _ => alike
    · apply inMemory_setDatabase
      · rfl
      · rintro (_ | _) <;> rfl
      · rintro (_ | _) before
        · exact before
        · rfl
      · exact fun _ => rfl
      · exact alike
    · rw [setDatabase_same]
      rfl
  · next read => exact ⟨zei, rfl, inv, InMemory.refl zei, Bool.eq_false_iff.mpr read⟩

theorem needDatabase_spec (inv : zei.Inv yaz busy) (mem : zdi ∈ zei.databaseInfo) :
    ∃ next, zei.needDatabase zdi = some next ∧ next.Inv yaz busy ∧ InMemory zei next ∧
      (next.memory zdi).readFlag = false := by
  rw [needDatabase]
  split
  · next unread =>
    have good := inv.good zdi mem
    obtain ⟨written, idle⟩ := good.unread .database unread
    obtain ⟨numbered, data, here, recordCount, recordBytes, ordinalDatabase, rfl, -⟩ :=
      good.stored .database written idle
    have alike : ((zei.memory zdi).view zei.records).Alike
        (((zei.memory zdi).withDatabase recordCount recordBytes ordinalDatabase).view
          zei.records) := by
      rw [view_withDatabase unread here]
      exact View.Alike.refl _
    refine ⟨_, readDatabase_eq numbered here, ?_, ?_, ?_⟩
    · apply inv.setDatabase
      · rfl
      · rintro (_ | _) <;> rfl
      · rintro (_ | _) before
        · rfl
        · exact before
      · exact fun read => absurd (read.symm.trans unread) Bool.false_ne_true
      · rintro - (_ | _) before <;> exact before
      · exact fun _ => good.withDatabase here
      · exact fun _ => alike
    · apply inMemory_setDatabase
      · rfl
      · rintro (_ | _) <;> rfl
      · rintro (_ | _) before
        · rfl
        · exact before
      · exact fun read => absurd (read.symm.trans unread) Bool.false_ne_true
      · exact alike
    · rw [setDatabase_same]
      rfl
  · next read => exact ⟨zei, rfl, inv, InMemory.refl zei, Bool.eq_false_iff.mpr read⟩

/-- The attributes of a database that has been read change, and no index of them. -/
theorem setSUInfo_spec (inv : zei.Inv yaz busy) {sui : List SUInfo} {dirtyMark : Bool}
    (read : (zei.memory zdi).attributeDetails.readFlag = false)
    (perm : (sui.map toIndex).Perm
      ((zei.memory zdi).attributeDetails.SUInfo.map toIndex))
    (writes : dirtyMark = true → zei.writeFlag = true) :
    (zei.setDatabase zdi ((zei.memory zdi).setSUInfo sui dirtyMark)).Inv yaz busy ∧
      InMemory zei (zei.setDatabase zdi ((zei.memory zdi).setSUInfo sui dirtyMark)) := by
  constructor
  · apply inv.setDatabase
    · rfl
    · rintro (_ | _) <;> rfl
    · rintro (_ | _) before <;> exact before
    · exact fun _ => rfl
    · rintro readOnly (_ | _) before
      · exact before
      · have unmarked : dirtyMark = false := by
          rw [Bool.eq_false_iff]
          intro marked
          exact Bool.false_ne_true (readOnly.symm.trans (writes marked))
        exact Bool.or_eq_false_iff.mpr ⟨before, unmarked⟩
    · exact fun mem => (inv.good zdi mem).setSUInfo read perm
    · exact fun _ => view_setSUInfo read perm
  · apply inMemory_setDatabase
    · rfl
    · rintro (_ | _) <;> rfl
    · rintro (_ | _) before <;> exact before
    · exact fun _ => rfl
    · exact view_setSUInfo read perm

theorem indexes_of_read {zdi : DatabaseInfo} (records : Records)
    (read : zdi.attributeDetails.readFlag = false) :
    (zdi.view records).indexes = zdi.attributeDetails.SUInfo.map toIndex := by
  simp [view, attributes, read]

theorem mem_views (mem : zdi ∈ zei.databaseInfo) : (zei.memory zdi).view zei.records ∈ zei.views :=
  List.mem_map.mpr ⟨zdi, mem, rfl⟩

/-- What a walk over databases comes to: the attribute with the ordinal, or nothing where there is
no such attribute. -/
def Finds (ord : Nat) (zdis : List Nat) (zei next : ExplainInfo) :
    Option (SUInfo × List Byte) → Prop
  | some (sui, db) => sui.ordinal = ord ∧ ∃ v ∈ next.views, v.name = db ∧ sui.toIndex ∈ v.indexes
  | none => ∀ zdi ∈ zdis, ∀ index ∈ ((zei.memory zdi).view zei.records).indexes, index.ordinal ≠ ord

/-- A walk over databases finds the attribute with an ordinal, if there is one, and changes nothing
but memory. -/
theorem getSuiInfoIn_spec (ord : Nat) (dirtyMark : Bool) {adjust : SUInfo → SUInfo}
    (keeps : ∀ sui, (adjust sui).toIndex = sui.toIndex) (zdis : List Nat) (inv : zei.Inv yaz busy)
    (listed : ∀ zdi ∈ zdis, zdi ∈ zei.databaseInfo)
    (writes : dirtyMark = true → zei.writeFlag = true) :
    ∃ found next, getSuiInfoIn ord dirtyMark adjust zdis zei = some (found, next) ∧
      next.Inv yaz busy ∧ InMemory zei next ∧ Finds ord zdis zei next found := by
  induction zdis generalizing zei with
  | nil =>
    exact ⟨none, zei, rfl, inv, InMemory.refl zei, fun zdi mem => absurd mem List.not_mem_nil⟩
  | cons zdb rest ih =>
    have mem := listed zdb List.mem_cons_self
    obtain ⟨opened, need, openedInv, openedFrom, read⟩ := needAttributeDetails_spec inv mem
    have openedMem : zdb ∈ opened.databaseInfo := openedFrom.frame.databaseInfo ▸ mem
    have openedWrites : dirtyMark = true → opened.writeFlag = true := by
      rw [openedFrom.frame.writeFlag]
      exact writes
    have indexes := indexes_of_read opened.records read
    rw [getSuiInfoIn, need, bind_eq_bind, bind_some]
    dsimp only
    split
    · next missing =>
      have further : ∀ zdi ∈ rest, zdi ∈ opened.databaseInfo := by
        rw [openedFrom.frame.databaseInfo]
        exact fun zdi here => listed zdi (.tail _ here)
      obtain ⟨found, next, walk, nextInv, nextFrom, finds⟩ := ih openedInv further openedWrites
      refine ⟨found, next, walk, nextInv, openedFrom.trans nextFrom, ?_⟩
      cases found with
      | some => exact finds
      | none =>
        intro zdi here index stands
        rcases List.mem_cons.mp here with rfl | here
        · have stood := ((openedFrom.alike zdi mem).indexes.mem_iff).mpr stands
          rw [indexes] at stood
          obtain ⟨sui, listedSui, rfl⟩ := List.mem_map.mp stood
          simpa using takeOut_none missing sui listedSui
        · have stood := ((openedFrom.alike zdi
            (listed zdi (.tail _ here))).indexes.mem_iff).mpr stands
          exact finds zdi here index stood
    · next found others taken =>
      obtain ⟨perm, holds⟩ := takeOut_perm taken
      have same : ((adjust found :: others).map toIndex).Perm
          ((opened.memory zdb).attributeDetails.SUInfo.map toIndex) := by
        have mapped := perm.map toIndex
        rw [List.map_cons] at mapped ⊢
        rw [keeps]
        exact mapped
      obtain ⟨nextInv, nextFrom⟩ := setSUInfo_spec openedInv read same openedWrites
      refine ⟨_, _, rfl, nextInv, openedFrom.trans nextFrom, ?_⟩
      refine ⟨by simpa using holds, _, mem_views openedMem, ?_, ?_⟩
      · rw [setDatabase_same]
        rfl
      · rw [setDatabase_same]
        have read' : ((opened.memory zdb).setSUInfo (adjust found :: others)
            dirtyMark).attributeDetails.readFlag = false := read
        rw [indexes_of_read _ read']
        apply List.mem_map.mpr
        exact ⟨adjust found, .head _, keeps found⟩

theorem SUInfo.adjust_toIndex (termDelta docDelta : Int) (sui : SUInfo) :
    (adjust termDelta docDelta sui).toIndex = sui.toIndex :=
  rfl

/-- `zebraExplain_lookup_ord` on any state. -/
theorem lookupOrd_spec (inv : zei.Inv yaz busy) (ord : Nat) :
    ∃ found next, getSuiInfoIn ord false id zei.databaseInfo zei = some (found, next) ∧
      zei.lookupOrd ord =
        some (found.map fun sui => (sui.1.indexType, sui.2, sui.1.str), next) ∧
      next.Inv yaz busy ∧ InMemory zei next ∧ Finds ord zei.databaseInfo zei next found := by
  obtain ⟨found, next, walk, nextInv, nextFrom, finds⟩ :=
    getSuiInfoIn_spec ord false (fun sui => rfl : ∀ sui, (id sui : SUInfo).toIndex = sui.toIndex)
      zei.databaseInfo inv (fun _ => id) (fun marked => absurd marked Bool.false_ne_true)
  refine ⟨found, next, walk, ?_, nextInv, nextFrom, finds⟩
  rw [lookupOrd, walk]
  rfl

/-- `zebraExplain_ord_adjust_occurrences` changes nothing but memory. -/
theorem ordAdjustOccurrences_spec (inv : zei.Inv yaz busy) {ord : Nat} {termDelta docDelta : Int}
    (writes : zei.writeFlag = true)
    (run : zei.ordAdjustOccurrences ord termDelta docDelta = some next) :
    next.Inv yaz busy ∧ InMemory zei next := by
  obtain ⟨found, reached, walk, nextInv, nextFrom, -⟩ :=
    getSuiInfoIn_spec ord true (SUInfo.adjust_toIndex termDelta docDelta) zei.databaseInfo inv
      (fun _ => id) (fun _ => writes)
  rw [ordAdjustOccurrences, walk] at run
  cases run
  exact ⟨nextInv, nextFrom⟩

/-- `zebraExplain_lookup_attr_str` changes nothing but memory. -/
theorem lookupAttrStr_spec (inv : zei.Inv yaz busy) {cat : IndexCategory}
    {indexType : Option (List Byte)} {str : List Byte} {ord : Option Nat}
    (run : zei.lookupAttrStr yaz cat indexType str = some (ord, next)) :
    next.Inv yaz busy ∧ InMemory zei next := by
  obtain ⟨cur, here, rest⟩ := bind_eq_some_iff.mp run
  dsimp only at rest
  split at rest
  · cases rest
    exact ⟨inv, InMemory.refl zei⟩
  · next found others taken =>
    cases rest
    have read := (inv.current cur here).read .details
    have same := (takeOut_perm taken).1.map toIndex
    exact setSUInfo_spec inv read same fun marked => absurd marked Bool.false_ne_true

end ExplainInfo

end Zebra.Explain
