import Zebra.Explain.Lookup

/-!
# Selecting, adding and extracting

What an extraction does to the explain information: it selects the database of the explain records,
looks indexes up and adds those that are not there.
-/

namespace Zebra.Explain

open Option

namespace ExplainInfo

open DatabaseInfo (view)

variable {yaz : Yaz} {busy : Option Slot} {zei next : ExplainInfo}

theorem InMemory.log (from' : InMemory zei next) : next.log = zei.log := by
  rw [from'.eq]

variable {zdi : DatabaseInfo}

theorem ordinal_of_read (records : Records) (read : zdi.readFlag = false) :
    (zdi.view records).ordinal = zdi.ordinalDatabase := by
  simp [DatabaseInfo.view, DatabaseInfo.ordinal, read]

theorem frame_select (zei : ExplainInfo) (cur : Option Nat) :
    Frame zei { zei with curDatabaseInfo := cur } where
  databaseInfo := rfl
  records := rfl
  writeFlag := rfl
  sysno _ _ := rfl
  name _ := rfl
  dirty := id
  read _ _ := id
  ordinal _ _ := rfl

/-- A database that has been read becomes the current one. -/
theorem Inv.select (inv : zei.Inv yaz busy) {zdi : Nat} (mem : zdi ∈ zei.databaseInfo)
    (read : ∀ part, (zei.memory zdi).isUnread part = false) :
    { zei with curDatabaseInfo := some zdi }.Inv yaz busy where
  numbered := inv.numbered.frame (frame_select zei (some zdi)) le_rfl
  good := inv.good
  target := inv.target
  current cur here := by
    cases here
    refine ⟨inv.numbered.allocated zdi mem, read, ?_, Or.inl mem⟩
    have lt := inv.agrees.ordinal_lt (mem_views mem)
    rw [ordinal_of_read zei.records (read .database)] at lt
    exact lt
  clean := inv.clean
  agrees := inv.agrees

/-- `zebraExplain_curDatabase`: what is selected is there. -/
theorem curDatabase_spec (inv : zei.Inv yaz busy) (database : List Byte) :
    ∃ there next, zei.curDatabase database = some (there, next) ∧ next.Inv yaz busy ∧
      ∃ opened, InMemory zei opened ∧
        next = { opened with curDatabaseInfo := next.curDatabaseInfo } := by
  rw [curDatabase]
  split
  · exact ⟨true, zei, rfl, inv, zei, InMemory.refl zei, rfl⟩
  · split
    · exact ⟨false, zei, rfl, inv, zei, InMemory.refl zei, rfl⟩
    · next zdi found =>
      have mem : zdi ∈ zei.databaseInfo := List.mem_of_find?_eq_some found
      obtain ⟨first, needed, firstInv, firstFrom, firstRead⟩ := needDatabase_spec inv mem
      have firstMem : zdi ∈ first.databaseInfo := firstFrom.frame.databaseInfo ▸ mem
      obtain ⟨second, needed', secondInv, secondFrom, secondRead⟩ :=
        needAttributeDetails_spec firstInv firstMem
      have secondMem : zdi ∈ second.databaseInfo := secondFrom.frame.databaseInfo ▸ firstMem
      refine ⟨true, { second with curDatabaseInfo := some zdi }, ?_, ?_, second,
        firstFrom.trans secondFrom, rfl⟩
      · rw [needed, bind_eq_bind, bind_some, needed']
        rfl
      · apply secondInv.select secondMem
        rintro (_ | _)
        · exact secondFrom.frame.read zdi .database firstRead
        · exact secondRead

theorem curDatabase_frame (inv : zei.Inv yaz busy) {database : List Byte} {there : Bool}
    (run : zei.curDatabase database = some (there, next)) : next.Inv yaz busy ∧ Frame zei next := by
  obtain ⟨_, reached, run', nextInv, opened, from', same⟩ := curDatabase_spec inv database
  rw [run] at run'
  cases run'
  refine ⟨nextInv, from'.frame.trans ?_⟩
  rw [same]
  exact frame_select opened next.curDatabaseInfo

theorem good_addSUInfo {records : Records} {writing : Part → Prop}
    (good : zdi.Good records writing) (read : zdi.attributeDetails.readFlag = false)
    (sui : List SUInfo) : (zdi.setSUInfo sui true).Good records writing := by
  apply good.update
  · rintro (_ | _) <;> rfl
  · rintro (_ | _) unread
    · exact ⟨unread, id⟩
    · exact absurd (read.symm.trans unread) Bool.false_ne_true
  · rintro (_ | _) written idle
    · exact good.stored .database written idle
    · exact absurd (Bool.or_eq_false_iff.mp written).2 Bool.true_eq_false.mp

theorem view_addSUInfo (records : Records)
    (read : zdi.attributeDetails.readFlag = false) (sui : SUInfo) :
    (zdi.setSUInfo (sui :: zdi.attributeDetails.SUInfo) true).view records =
      (zdi.view records).assign (zdi.view records).ordinal sui.toIndex := by
  have read' : (zdi.setSUInfo (sui :: zdi.attributeDetails.SUInfo)
      true).attributeDetails.readFlag = false := read
  have added := indexes_of_read records read'
  have before := indexes_of_read records read
  rw [View.assign, if_pos rfl]
  unfold view at added before ⊢
  dsimp only at added before ⊢
  rw [added, before]
  rfl

/-- An index of the next ordinal has been added to a database. -/
def withIndex (zei : ExplainInfo) (cur : Nat) (index : Index) : ExplainInfo :=
  { zei.setDatabase cur ((zei.memory cur).setSUInfo
      ({ index with docOccurrences := 0, termOccurrences := 0 } ::
        (zei.memory cur).attributeDetails.SUInfo) true) with
    dirty := true
    ordinalSU := zei.ordinalSU + 1
    log := zei.log ++ [.assigned (zei.memory cur).ordinalDatabase index] }

variable {cur : Nat}

theorem addAttrStr_eq (here : zei.curDatabaseInfo = some cur) (cat : IndexCategory)
    (indexType indexName : List Byte) :
    zei.addAttrStr cat indexType indexName =
      some (zei.ordinalSU, zei.withIndex cur ⟨indexType, cat, indexName, zei.ordinalSU⟩) := by
  rw [addAttrStr, here]
  rfl

theorem withIndex_same (zei : ExplainInfo) (cur : Nat) (index : Index) :
    (zei.withIndex cur index).memory cur = (zei.memory cur).setSUInfo
      ({ index with docOccurrences := 0, termOccurrences := 0 } ::
        (zei.memory cur).attributeDetails.SUInfo) true :=
  setDatabase_same zei cur _

theorem withIndex_other (zei : ExplainInfo) {other : Nat} (index : Index)
    (apart : other ≠ cur) : (zei.withIndex cur index).memory other = zei.memory other :=
  setDatabase_other zei _ apart

theorem frame_withIndex (zei : ExplainInfo) (cur : Nat) (index : Index) :
    Frame zei (zei.withIndex cur index) where
  databaseInfo := rfl
  records := rfl
  writeFlag := rfl
  sysno other part := by
    rcases eq_or_ne other cur with rfl | apart
    · rw [withIndex_same]
      cases part <;> rfl
    · rw [withIndex_other zei index apart]
  name other := by
    rcases eq_or_ne other cur with rfl | apart
    · rw [withIndex_same]
      rfl
    · rw [withIndex_other zei index apart]
  dirty _ := rfl
  read other part before := by
    rcases eq_or_ne other cur with rfl | apart
    · rw [withIndex_same]
      cases part <;> exact before
    · rw [withIndex_other zei index apart]
      exact before
  ordinal other _ := by
    rcases eq_or_ne other cur with rfl | apart
    · rw [withIndex_same]
      rfl
    · rw [withIndex_other zei index apart]

/-- The number of the current database belongs to no other database, also when it has been
removed. -/
theorem Current.ordinal_ne (current : zei.Current cur) (inv : zei.Inv yaz busy)
    {zdi : Nat} (mem : zdi ∈ zei.databaseInfo) (apart : zdi ≠ cur) :
    ((zei.memory zdi).view zei.records).ordinal ≠ (zei.memory cur).ordinalDatabase := by
  intro same
  rcases current.listed with listed | removed
  · have read := ordinal_of_read zei.records (current.read .database)
    have twice := inv.agrees.apart
    rw [views, List.map_map] at twice
    exact apart (List.inj_on_of_nodup_map twice mem listed (same.trans read.symm))
  · rw [← same] at removed
    exact inv.agrees.not_removed (mem_views mem) removed

theorem views_withIndex (inv : zei.Inv yaz busy) (current : zei.Current cur) (index : Index) :
    (zei.withIndex cur index).views =
      zei.views.map (View.assign (zei.memory cur).ordinalDatabase index) := by
  unfold views
  rw [List.map_map]
  apply List.map_congr_left
  intro zdi mem
  rw [Function.comp_apply]
  rcases eq_or_ne zdi cur with rfl | apart
  · rw [withIndex_same, ← ordinal_of_read zei.records (current.read .database)]
    exact view_addSUInfo zei.records (current.read .details) _
  · rw [withIndex_other zei index apart, View.assign, if_neg (current.ordinal_ne inv mem apart)]
    rfl

theorem Inv.withIndex (inv : zei.Inv yaz busy) {index : Index}
    (here : zei.curDatabaseInfo = some cur) (writes : zei.writeFlag = true)
    (ordinal : index.ordinal = zei.ordinalSU) (type : yaz.Plain index.indexType)
    (name : yaz.Plain index.str) : (zei.withIndex cur index).Inv yaz busy := by
  have current := inv.current cur here
  exact
    { numbered := inv.numbered.frame (frame_withIndex zei cur index) le_rfl
      good := by
        intro zdi mem
        rcases eq_or_ne zdi cur with rfl | apart
        · rw [withIndex_same]
          exact good_addSUInfo (inv.good zdi mem) (current.read .details) _
        · rw [withIndex_other zei index apart]
          exact inv.good zdi mem
      target := fun _ notDirty => nomatch notDirty
      current := by
        intro other there
        cases here.symm.trans there
        refine ⟨current.allocated, ?_, ?_, ?_⟩ <;> rw [withIndex_same]
        · rintro (_ | _)
          · exact current.read .database
          · exact current.read .details
        · exact current.ordinal_lt
        · exact current.listed.imp id fun removed => List.mem_append_left _ removed
      clean := fun readOnly => absurd (readOnly.symm.trans writes) Bool.false_ne_true
      agrees := by
        rw [views_withIndex inv current]
        exact inv.agrees.assign current.ordinal_lt ordinal type name }

theorem addAttrStr_spec (inv : zei.Inv yaz busy) {cat : IndexCategory}
    {indexType indexName : List Byte} {ord : Nat} (writes : zei.writeFlag = true)
    (type : yaz.Plain indexType) (name : yaz.Plain indexName)
    (run : zei.addAttrStr cat indexType indexName = some (ord, next)) :
    next.Inv yaz busy ∧ Frame zei next := by
  obtain ⟨cur, here, -⟩ := bind_eq_some_iff.mp run
  rw [addAttrStr_eq here] at run
  cases run
  exact ⟨inv.withIndex here writes rfl type name, frame_withIndex zei cur _⟩

theorem Inv.counts (inv : zei.Inv yaz busy) (here : zei.curDatabaseInfo = some cur)
    (writes : zei.writeFlag = true) (recordCount recordBytes : Int) :
    (zei.setDatabase cur { zei.memory cur with
      recordCount := recordCount, recordBytes := recordBytes, dirty := true }).Inv yaz busy ∧
      Frame zei (zei.setDatabase cur { zei.memory cur with
        recordCount := recordCount, recordBytes := recordBytes, dirty := true }) := by
  have read := (inv.current cur here).read .database
  constructor
  · apply inv.setDatabase
    · rfl
    · rintro (_ | _) <;> rfl
    · rintro (_ | _) before <;> exact before
    · exact fun _ => rfl
    · exact fun readOnly => absurd (readOnly.symm.trans writes) Bool.false_ne_true
    · exact fun mem => (inv.good cur mem).counts read recordCount recordBytes
    · exact fun _ => ⟨rfl, rfl, List.Perm.refl _⟩
  · apply frame_setDatabase
    · rfl
    · rintro (_ | _) <;> rfl
    · rintro (_ | _) before <;> exact before
    · exact fun _ => rfl

theorem recordCountIncrement_spec (inv : zei.Inv yaz busy) {adjustNum : Int}
    (writes : zei.writeFlag = true) (run : zei.recordCountIncrement adjustNum = some next) :
    next.Inv yaz busy ∧ Frame zei next := by
  obtain ⟨cur, here, rest⟩ := bind_eq_some_iff.mp run
  dsimp only at rest
  split at rest
  · cases rest
    exact ⟨inv, Frame.refl zei⟩
  · cases rest
    exact inv.counts here writes ((zei.memory cur).recordCount + adjustNum)
      (zei.memory cur).recordBytes

theorem recordBytesIncrement_spec (inv : zei.Inv yaz busy) {adjustNum : Int}
    (writes : zei.writeFlag = true) (run : zei.recordBytesIncrement adjustNum = some next) :
    next.Inv yaz busy ∧ Frame zei next := by
  obtain ⟨cur, here, rest⟩ := bind_eq_some_iff.mp run
  dsimp only at rest
  split at rest
  · cases rest
    exact ⟨inv, Frame.refl zei⟩
  · cases rest
    exact inv.counts here writes (zei.memory cur).recordCount
      ((zei.memory cur).recordBytes + adjustNum)

/-- Whether all indexes of a token have a type and a name that can be written. -/
def Extracted.Plain (yaz : Yaz) : Extracted → Prop
  | .token _ indexType indexName => yaz.Plain indexType ∧ yaz.Plain indexName
  | _ => True

theorem extractOne_spec (inv : zei.Inv yaz busy) (writes : zei.writeFlag = true)
    {extracted : Extracted} (plain : extracted.Plain yaz)
    (run : extractOne yaz zei extracted = some next) : next.Inv yaz busy ∧ Frame zei next := by
  cases extracted with
  | token cat indexType indexName =>
    obtain ⟨⟨ch, looked⟩, lookup, rest⟩ := bind_eq_some_iff.mp run
    obtain ⟨lookedInv, lookedFrom⟩ := lookupAttrStr_spec inv lookup
    dsimp only at rest
    split at rest
    · cases rest
      exact ⟨lookedInv, lookedFrom.frame⟩
    · obtain ⟨⟨ord, added⟩, add, same⟩ := bind_eq_some_iff.mp rest
      cases same
      have writes' : looked.writeFlag = true := lookedFrom.frame.writeFlag.trans writes
      obtain ⟨addedInv, addedFrame⟩ := addAttrStr_spec lookedInv writes' plain.1 plain.2 add
      exact ⟨addedInv, lookedFrom.frame.trans addedFrame⟩
  | occurrences ord termDelta docDelta =>
    obtain ⟨nextInv, nextFrom⟩ := ordAdjustOccurrences_spec inv writes run
    exact ⟨nextInv, nextFrom.frame⟩
  | records adjustNum => exact recordCountIncrement_spec inv writes run

variable {extracted : List Extracted}

theorem extract_spec (inv : zei.Inv yaz busy) (writes : zei.writeFlag = true)
    (plain : ∀ one ∈ extracted, one.Plain yaz)
    (run : extracted.foldlM (extractOne yaz) zei = some next) :
    next.Inv yaz busy ∧ Frame zei next := by
  induction extracted generalizing zei with
  | nil =>
    cases run
    exact ⟨inv, Frame.refl _⟩
  | cons one rest ih =>
    rw [List.foldlM_cons] at run
    obtain ⟨step, first, further⟩ := bind_eq_some_iff.mp run
    obtain ⟨stepInv, stepFrame⟩ := extractOne_spec inv writes (plain one List.mem_cons_self) first
    have writes' : step.writeFlag = true := stepFrame.writeFlag.trans writes
    obtain ⟨nextInv, nextFrame⟩ :=
      ih stepInv writes' (fun other mem => plain other (List.mem_cons_of_mem _ mem)) further
    exact ⟨nextInv, stepFrame.trans nextFrame⟩

/-- `zebra_extract_explain` keeps the invariant, whatever is being written. -/
theorem updateFunc_spec (inv : zei.Inv yaz busy) (writes : zei.writeFlag = true)
    (plain : ∀ one ∈ extracted, one.Plain yaz)
    (run : updateFunc yaz zei extracted = some next) : next.Inv yaz busy ∧ Frame zei next := by
  obtain ⟨⟨there, selected⟩, select, rest⟩ := bind_eq_some_iff.mp run
  obtain ⟨selectedInv, selectedFrame⟩ := curDatabase_frame inv select
  dsimp only at rest
  split at rest
  · have writes' : selected.writeFlag = true := selectedFrame.writeFlag.trans writes
    obtain ⟨nextInv, nextFrame⟩ := extract_spec selectedInv writes' plain rest
    exact ⟨nextInv, selectedFrame.trans nextFrame⟩
  · cases rest

theorem updateKeys_spec (inv : zei.Inv yaz busy) (writes : zei.writeFlag = true) {keyFlush : Bool}
    (plain : ∀ one ∈ extracted, one.Plain yaz)
    (run : updateKeys yaz zei keyFlush extracted = some next) :
    next.Inv yaz busy ∧ Frame zei next ∧ (keyFlush = false → next = zei) := by
  cases keyFlush with
  | false =>
    cases run
    exact ⟨inv, Frame.refl _, fun _ => rfl⟩
  | true =>
    obtain ⟨nextInv, nextFrame⟩ := updateFunc_spec inv writes plain run
    exact ⟨nextInv, nextFrame, fun h => nomatch h⟩

end ExplainInfo

end Zebra.Explain
