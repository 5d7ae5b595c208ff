import Zebra.Explain.Writing

/-!
# Ordinals over sessions

The explain information is read again from what a flush has written.  With names that stand in a
record as they are, the history accounts for every state that is reached, so that an ordinal goes on
to tell its index for as long as the database is there.
-/

namespace Zebra.Explain

open List DatabaseInfo
open Option (bind_eq_some_iff map_eq_some_iff)

def DatabaseInfo.entry (yaz : Yaz) (zdi : DatabaseInfo) : TargetDatabase where
  name := yaz.xmlputs zdi.databaseName
  id := zdi.sysno
  attributeDetailsId := zdi.attributeDetails.sysno

namespace ExplainInfo

open DatabaseInfo (view)

variable {yaz : Yaz} {zei next : ExplainInfo}

theorem readInfo_sysnoOf (yaz : Yaz) (zdi : DatabaseInfo) (part : Part) :
    (readInfo (zdi.entry yaz)).sysnoOf part = zdi.sysnoOf part := by
  cases part <;> rfl

/-- A database whose records are up to date can be read again. -/
theorem good_readInfo {records : Records} {zdi : DatabaseInfo}
    (good : zdi.Good records fun _ => False) (clean : ∀ part, zdi.isDirty part = false)
    {busy : Part → Prop} (idle : ∀ part, ¬busy part) :
    (readInfo (zdi.entry yaz)).Good records busy where
  sysno_le part := by
    rw [readInfo_sysnoOf]
    exact good.sysno_le part
  there part numbered _ := by
    rw [readInfo_sysnoOf] at numbered ⊢
    exact good.there part numbered id
  unread part _ := by
    refine ⟨?_, idle part⟩
    cases part <;> rfl
  busy_sysno part busy := absurd busy (idle part)
  stored part _ _ := by
    obtain ⟨numbered, data, here, content⟩ := good.stored part (clean part) id
    rw [readInfo_sysnoOf]
    refine ⟨numbered, data, here, ?_⟩
    cases part with
    | database =>
      obtain ⟨recordCount, recordBytes, ordinalDatabase, rfl, -⟩ := content
      exact ⟨_, _, _, rfl, fun read => nomatch read⟩
    | details =>
      obtain ⟨attrlist, rfl, -⟩ := content
      exact ⟨_, rfl, fun read => nomatch read⟩

theorem readInfo_alike {records : Records} {zdi : DatabaseInfo}
    (good : zdi.Good records fun _ => False) (clean : ∀ part, zdi.isDirty part = false)
    (name : yaz.Plain zdi.databaseName) :
    (zdi.view records).Alike ((readInfo (zdi.entry yaz)).view records) where
  ordinal := by
    obtain ⟨-, data, here, recordCount, recordBytes, ordinalDatabase, rfl, same⟩ :=
      good.stored .database (clean .database) id
    have here' : records.info zdi.sysno =
      some (.database recordCount recordBytes ordinalDatabase) := here
    cases known : zdi.readFlag with
    | false =>
      simp [view, ordinal, readInfo, entry, here', known,
        same known]
    | true =>
      simp [view, ordinal, readInfo, entry, here', known]
  name := name.2
  indexes := by
    obtain ⟨-, data, here, attrlist, rfl, same⟩ := good.stored .details (clean .details) id
    have here' : records.info zdi.attributeDetails.sysno = some (.attributeDetails attrlist) := here
    cases known : zdi.attributeDetails.readFlag with
    | false =>
      have perm := same known
      simpa [view, attributes, readInfo, entry, here',
        known] using perm
    | true =>
      simp [view, attributes, readInfo, entry, here', known]

/-- What is opened after a flush, with the history of before. -/
def reopened (zei : ExplainInfo) (writeFlag : Bool) (target : TargetInfo) : ExplainInfo :=
  { ofTarget zei.records writeFlag target with log := zei.log }

theorem databaseList_eq (zei : ExplainInfo) :
    (zei.targetInfo yaz).databaseList =
      zei.databaseInfo.map fun zdi => (zei.memory zdi).entry yaz :=
  rfl

section

variable {writeFlag : Bool} {target : TargetInfo}

theorem reopened_memory
    (list : target.databaseList = zei.databaseInfo.map fun zdi => (zei.memory zdi).entry yaz)
    {i : Nat} (within : i < zei.databaseInfo.length) :
    (zei.reopened writeFlag target).memory i =
      readInfo ((zei.memory zei.databaseInfo[i]).entry yaz) := by
  have here : target.databaseList.getD i ⟨[], 0, 0⟩ =
      (zei.memory zei.databaseInfo[i]).entry yaz := by
    rw [list]
    simp [List.getD, within]
  exact congrArg readInfo here

theorem reopened_databaseInfo
    (list : target.databaseList = zei.databaseInfo.map fun zdi => (zei.memory zdi).entry yaz) :
    (zei.reopened writeFlag target).databaseInfo = List.range zei.databaseInfo.length := by
  have length : target.databaseList.length = zei.databaseInfo.length := by
    rw [list, length_map]
  exact congrArg List.range length

theorem mem_reopened
    (list : target.databaseList = zei.databaseInfo.map fun zdi => (zei.memory zdi).entry yaz)
    {i : Nat} (mem : i ∈ (zei.reopened writeFlag target).databaseInfo) :
    i < zei.databaseInfo.length := by
  rw [reopened_databaseInfo list] at mem
  exact mem_range.mp mem

theorem reopened_sysnoOf
    (list : target.databaseList = zei.databaseInfo.map fun zdi => (zei.memory zdi).entry yaz)
    {i : Nat} (within : i < zei.databaseInfo.length) (part : Part) :
    ((zei.reopened writeFlag target).memory i).sysnoOf part =
      (zei.memory zei.databaseInfo[i]).sysnoOf part := by
  rw [reopened_memory list within, readInfo_sysnoOf]

theorem Inv.reopened (inv : zei.Inv yaz none) (clean : Clean zei)
    (root : zei.records.info 1 = some (.target (some target)))
    (list : target.databaseList = zei.databaseInfo.map fun zdi => (zei.memory zdi).entry yaz)
    (su : target.ordinalSU = zei.ordinalSU) (db : target.ordinalDatabase = zei.ordinalDatabase) :
    (zei.reopened writeFlag target).Inv yaz none := by
  have listed {i : Nat} (within : i < zei.databaseInfo.length) :
      zei.databaseInfo[i] ∈ zei.databaseInfo := getElem_mem within
  have dirty {i : Nat} (within : i < zei.databaseInfo.length) (part : Part) :
      (zei.memory zei.databaseInfo[i]).isDirty part = false := clean.2 _ (listed within) part
  have numbered := (inv.target (fun h => nomatch h) clean.1).2
  have name {i : Nat} (within : i < zei.databaseInfo.length) :
      yaz.Plain (zei.memory zei.databaseInfo[i]).databaseName :=
    inv.agrees.names _ (mem_views (listed within))
  have written : target.databaseList =
      ((zei.reopened writeFlag target).targetInfo yaz).databaseList := by
    rw [databaseList_eq, reopened_databaseInfo list, list]
    apply ext_getElem
    · simp
    · intro i before after
      have within : i < zei.databaseInfo.length := by simpa using before
      rw [getElem_map, getElem_map, getElem_range, reopened_memory list within]
      have plain := (name within).2
      simp [entry, readInfo, plain]
  exact
    { numbered :=
        { nodup := by
            rw [reopened_databaseInfo list]
            exact nodup_range
          allocated := fun i mem => mem_range.mp mem
          apart := by
            intro i hi j hj p q same nonzero
            have hi := mem_reopened list hi
            have hj := mem_reopened list hj
            rw [reopened_sysnoOf list hi] at same nonzero
            rw [reopened_sysnoOf list hj] at same
            obtain ⟨place, part⟩ :=
              inv.numbered.apart _ (listed hi) _ (listed hj) p q same nonzero
            exact ⟨(List.Nodup.getElem_inj_iff inv.numbered.nodup).mp place, part⟩
          not_root := by
            intro i mem part
            have within := mem_reopened list mem
            rw [reopened_sysnoOf list within]
            exact inv.numbered.not_root _ (listed within) part
          root := inv.numbered.root }
      good := by
        intro i mem
        have within := mem_reopened list mem
        rw [reopened_memory list within]
        exact good_readInfo (inv.idle (listed within)) (dirty within) fun _ h => nomatch h
      target := by
        intro _ _
        refine ⟨⟨target, root, written, rfl, rfl⟩, ?_⟩
        intro i mem part
        have within := mem_reopened list mem
        rw [reopened_sysnoOf list within]
        exact numbered _ (listed within) part
      current := fun cur here => nomatch here
      clean := by
        intro _
        refine ⟨rfl, ?_⟩
        intro i mem part
        have within := mem_reopened list mem
        rw [reopened_memory list within]
        cases part <;> rfl
      agrees := by
        have su' : (zei.reopened writeFlag target).ordinalSU = zei.ordinalSU := su
        have db' : (zei.reopened writeFlag target).ordinalDatabase = zei.ordinalDatabase := db
        rw [su', db']
        apply inv.agrees.congr
        rw [views, views, reopened_databaseInfo list, List.forall₂_iff_get]
        refine ⟨by simp, ?_⟩
        intro i before after
        have within : i < zei.databaseInfo.length := by simpa using before
        have alike := readInfo_alike (inv.idle (listed within)) (dirty within) (name within)
        have place : (zei.reopened writeFlag target).memory i =
            readInfo ((zei.memory zei.databaseInfo[i]).entry yaz) := reopened_memory list within
        simp only [get_eq_getElem, getElem_map, getElem_range, place]
        exact alike }

end

/-- `zebraExplain_close` and `zebraExplain_open`. -/
theorem reopen_spec (inv : zei.Inv yaz none) {writeFlag : Bool}
    {extracted : Nat → List Extracted} (plain : ∀ sysno, ∀ one ∈ extracted sysno, one.Plain yaz)
    (run : reopen yaz zei writeFlag extracted = some next) : next.Inv yaz none := by
  obtain ⟨flushed, flushing, rest⟩ := bind_eq_some_iff.mp run
  obtain ⟨opened, open', same⟩ := bind_eq_some_iff.mp rest
  obtain ⟨flushedInv, clean⟩ := flush_spec inv plain flushing
  obtain ⟨⟨target, root, list, su, db⟩, -⟩ := flushedInv.target (fun h => nomatch h) clean.1
  rw [openInfo, root] at open'
  dsimp only at open'
  split at open'
  · cases open'
    cases same
    have reopenedInv : (flushed.reopened writeFlag target).Inv yaz none :=
      flushedInv.reopened clean root list su db
    have log : flushed.log ++ (ofTarget flushed.records writeFlag target).log = flushed.log :=
      append_nil _
    rw [log]
    exact reopenedInv
  · cases open'

theorem open_spec (keeps : yaz.Plain irExplain1) (run : openInfo .empty true = some zei) :
    zei.Inv yaz none := by
  have name : databaseN irExplain1 = irExplain1 := by decide
  have plain : yaz.Plain (databaseN irExplain1) := by
    rw [name]
    exact keeps
  let records := Records.empty.new.2.put Records.empty.new.1 (.target none)
  have start : (initial records true).Inv yaz (some .target) :=
    { numbered :=
        { nodup := nodup_nil
          allocated := fun _ mem => absurd mem not_mem_nil
          apart := fun _ mem => absurd mem not_mem_nil
          not_root := fun _ mem => absurd mem not_mem_nil
          root := ⟨le_rfl, _, Records.put_same _ _ _⟩ }
      good := fun _ mem => absurd mem not_mem_nil
      target := fun idle => absurd rfl idle
      current := fun _ here => nomatch here
      clean := fun readOnly => nomatch readOnly
      agrees := Agrees.nil 1 1 }
  have created := start.withDatabase (fun _ _ h => nomatch h) rfl plain
  have touched := @Inv.of_records _ _ created records true le_rfl (fun _ _ _ => rfl) rfl
  cases run
  exact touched

end ExplainInfo

/-- Whether all names that an operation brings can be written as they are. -/
def Op.Plain (yaz : Yaz) : Op → Prop
  | .newDatabase database => yaz.Plain (databaseN database)
  | .addAttrStr _ indexType indexName => yaz.Plain indexType ∧ yaz.Plain indexName
  | .removeDatabase extracted => ∀ sysno, ∀ one ∈ extracted sysno, one.Plain yaz
  | .flush extracted => ∀ sysno, ∀ one ∈ extracted sysno, one.Plain yaz
  | .reopen _ extracted => ∀ sysno, ∀ one ∈ extracted sysno, one.Plain yaz
  | _ => True

section

open ExplainInfo

variable {yaz : Yaz} {zei next : ExplainInfo}

theorem Op.run_spec (inv : zei.Inv yaz none) {op : Op} (plain : op.Plain yaz)
    (writes : op.writes = true → zei.writeFlag = true) (run : op.run yaz zei = some next) :
    next.Inv yaz none := by
  cases op with
  | curDatabase database =>
    obtain ⟨⟨there, reached⟩, select, rfl⟩ := map_eq_some_iff.mp run
    exact (curDatabase_frame inv select).1
  | newDatabase database =>
    cases run
    exact newDatabase_spec inv (writes rfl) plain
  | lookupAttrStr cat indexType str =>
    obtain ⟨⟨ord, reached⟩, lookup, rfl⟩ := map_eq_some_iff.mp run
    exact (lookupAttrStr_spec inv lookup).1
  | addAttrStr cat indexType indexName =>
    obtain ⟨⟨ord, reached⟩, add, rfl⟩ := map_eq_some_iff.mp run
    exact (addAttrStr_spec inv (writes rfl) plain.1 plain.2 add).1
  | lookupOrd ord =>
    obtain ⟨⟨found, reached⟩, lookup, rfl⟩ := map_eq_some_iff.mp run
    obtain ⟨_, last, -, result, lastInv, -⟩ := lookupOrd_spec inv ord
    cases result.symm.trans lookup
    exact lastInv
  | ordAdjustOccurrences ord termDelta docDelta =>
    exact (ordAdjustOccurrences_spec inv (writes rfl) run).1
  | recordBytesIncrement adjustNum => exact (recordBytesIncrement_spec inv (writes rfl) run).1
  | recordCountIncrement adjustNum => exact (recordCountIncrement_spec inv (writes rfl) run).1
  | runNumberIncrement adjustNum =>
    cases run
    exact inv.touch (writes rfl) (zei.runNumber + adjustNum) fun dirty => by simp [dirty]
  | removeDatabase extracted =>
    obtain ⟨⟨there, reached⟩, remove, rfl⟩ := map_eq_some_iff.mp run
    exact removeDatabase_spec inv (writes rfl) plain remove
  | flush extracted => exact (flush_spec inv plain run).1
  | reopen writeFlag extracted => exact reopen_spec inv plain run

theorem inv_of_reached (keeps : yaz.Plain irExplain1) (reached : Reached yaz (Op.Plain yaz) zei) :
    zei.Inv yaz none := by
  induction reached with
  | start opened => exact open_spec keeps opened
  | step op _ plain writes run inv => exact op.run_spec inv plain writes run

/-- Ordinals are unique and stable: none is assigned twice, each goes on to tell its index as long
as the database is there, and each database has the indexes that have been assigned in it. -/
structure ExplainInfo.Stable (yaz : Yaz) (zei : ExplainInfo) : Prop where
  /-- no ordinal is assigned twice, also when its database has been removed -/
  distinct : (ordinals zei.log).Nodup
  /-- a lookup tells the index that an ordinal was assigned to, in a database that is there -/
  lookupOrd : ∀ ord, ∃ found next, zei.lookupOrd ord = some (found, next) ∧
    ∀ indexType db str, found = some (indexType, db, str) ↔
      ∃ database cat, .assigned database ⟨indexType, cat, str, ord⟩ ∈ zei.log ∧
        .created database db ∈ zei.log ∧ .removed database ∉ zei.log
  /-- the databases are those that have been created and not removed, each once -/
  databases : (∀ database name, (∃ v ∈ zei.views, v.ordinal = database ∧ v.name = name) ↔
      .created database name ∈ zei.log ∧ .removed database ∉ zei.log) ∧
    (zei.views.map View.ordinal).Nodup
  indexes : ∀ v ∈ zei.views, v.indexes.Perm (assignedTo zei.log v.ordinal)
  lookups : ∀ (op : Op) (next : ExplainInfo), op.looksUp = true → op.run yaz zei = some next →
    next.log = zei.log ∧ List.Forall₂ View.Alike zei.views next.views

theorem lookupOrd_exact (inv : zei.Inv yaz none) (ord : Nat) :
    ∃ found next, zei.lookupOrd ord = some (found, next) ∧
      ∀ indexType db str, found = some (indexType, db, str) ↔
        ∃ database cat, .assigned database ⟨indexType, cat, str, ord⟩ ∈ zei.log ∧
          .created database db ∈ zei.log ∧ .removed database ∉ zei.log := by
  obtain ⟨found, next, -, result, nextInv, nextFrom, finds⟩ := lookupOrd_spec inv ord
  refine ⟨_, next, result, ?_⟩
  have log : next.log = zei.log := nextFrom.log
  intro indexType db str
  cases found with
  | none =>
    constructor
    · intro h
      cases h
    · rintro ⟨database, cat, assigned, created, there⟩
      obtain ⟨v, mem, rfl, -⟩ := (inv.agrees.live database db).mpr ⟨created, there⟩
      have stands := (inv.agrees.mem_iff mem).mpr assigned
      obtain ⟨zdi, listed, rfl⟩ := mem_map.mp mem
      exact absurd rfl (finds zdi listed _ stands)
  | some pair =>
    obtain ⟨sui, name⟩ := pair
    obtain ⟨ordinal, v, mem, rfl, stands⟩ := finds
    have assigned := (nextInv.agrees.mem_iff mem).mp stands
    have live := (nextInv.agrees.live v.ordinal v.name).mp ⟨v, mem, rfl, rfl⟩
    rw [log] at assigned live
    constructor
    · intro same
      cases same
      refine ⟨v.ordinal, sui.cat, ?_, live⟩
      rw [← ordinal]
      exact assigned
    · rintro ⟨database, cat, assigned', created, there⟩
      obtain ⟨rfl, same⟩ :=
        assigned_unique inv.agrees.distinct assigned assigned' ordinal
      obtain ⟨w, wmem, wordinal, rfl⟩ := (inv.agrees.live v.ordinal db).mpr ⟨created, there⟩
      obtain ⟨u, umem, uordinal, uname⟩ := (inv.agrees.live v.ordinal v.name).mpr live
      have equal : u = w :=
        inj_on_of_nodup_map inv.agrees.apart umem wmem (uordinal.trans wordinal.symm)
      rw [Option.map_some, ← uname, equal]
      dsimp only
      rw [same]

theorem InMemory.views (from' : InMemory zei next) :
    List.Forall₂ View.Alike zei.views next.views :=
  alike_views from'.frame.databaseInfo from'.alike

/-- Selecting a database and looking up lose and add nothing. -/
theorem lookups_lose_nothing (inv : zei.Inv yaz none) {op : Op} (looksUp : op.looksUp = true)
    (run : op.run yaz zei = some next) :
    next.log = zei.log ∧ List.Forall₂ View.Alike zei.views next.views := by
  cases op with
  | curDatabase database =>
    obtain ⟨there, reached, select, -, opened, from', same⟩ := curDatabase_spec inv database
    obtain ⟨⟨_, last⟩, select', rfl⟩ := map_eq_some_iff.mp run
    cases select.symm.trans select'
    have views := InMemory.views from'
    rw [same]
    exact ⟨from'.log, views⟩
  | lookupAttrStr cat indexType str =>
    obtain ⟨⟨ord, reached⟩, lookup, rfl⟩ := map_eq_some_iff.mp run
    have from' := (lookupAttrStr_spec inv lookup).2
    exact ⟨from'.log, InMemory.views from'⟩
  | lookupOrd ord =>
    obtain ⟨_, last, -, result, -, from', -⟩ := lookupOrd_spec inv ord
    obtain ⟨⟨_, reached⟩, lookup, rfl⟩ := map_eq_some_iff.mp run
    cases result.symm.trans lookup
    exact ⟨from'.log, InMemory.views from'⟩
  | newDatabase => cases looksUp
  | addAttrStr => cases looksUp
  | ordAdjustOccurrences => cases looksUp
  | recordBytesIncrement => cases looksUp
  | recordCountIncrement => cases looksUp
  | runNumberIncrement => cases looksUp
  | removeDatabase => cases looksUp
  | flush => cases looksUp
  | reopen => cases looksUp

/-- In every run whose names can be written as they are, ordinals are unique and stable. -/
theorem ordinals_stable (keeps : yaz.Plain irExplain1)
    (reached : Reached yaz (Op.Plain yaz) zei) : zei.Stable yaz := by
  have inv := inv_of_reached keeps reached
  exact
    { distinct := inv.agrees.distinct
      lookupOrd := lookupOrd_exact inv
      databases := ⟨inv.agrees.live, inv.agrees.apart⟩
      indexes := inv.agrees.indexes
      lookups := fun op next looksUp run => lookups_lose_nothing inv looksUp run }

def runAll (yaz : Yaz) (ops : List Op) (zei : ExplainInfo) : Option ExplainInfo :=
  ops.foldlM (fun zei op =>
    if op.writes = true → zei.writeFlag = true then op.run yaz zei else none) zei

theorem reached_runAll {allowed : Op → Prop} (ops : List Op) (reached : Reached yaz allowed zei)
    (may : ∀ op ∈ ops, allowed op) (run : runAll yaz ops zei = some next) :
    Reached yaz allowed next := by
  induction ops generalizing zei with
  | nil =>
    cases run
    exact reached
  | cons op rest ih =>
    rw [runAll, foldlM_cons] at run
    obtain ⟨one, step, further⟩ := bind_eq_some_iff.mp run
    split at step
    · next writes =>
      have reached' := reached.step op (may op mem_cons_self) writes step
      exact ih reached' (fun other mem => may other (mem_cons_of_mem _ mem)) further
    · cases step

/-- `wrbuf_xmlputs`: markup is written as entities, and control characters that have no place in a
record are left out. -/
def xmlputs (text : List Byte) : List Byte :=
  text.flatMap fun c =>
    if c = 38 then [38, 97, 109, 112, 59]
    else if c = 60 then [38, 108, 116, 59]
    else if c = 62 then [38, 103, 116, 59]
    else if c = 34 then [38, 113, 117, 111, 116, 59]
    else if c = 39 then [38, 97, 112, 111, 115, 59]
    else if c < 32 ∧ c ≠ 9 ∧ c ≠ 10 ∧ c ≠ 13 then []
    else [c]

/-- The toolkit, with names compared without regard to case. -/
def toolkit : Yaz where
  matchstr := sameName
  xmlputs := xmlputs

/-- A new register in which an index has been added, and which has been opened again. -/
def addAndReopen (indexName : List Byte) : Option ExplainInfo :=
  (openInfo .empty true).bind (runAll toolkit
    [.addAttrStr .index [119] indexName, .reopen true fun _ => []])

theorem reached_addAndReopen {allowed : Op → Prop} {indexName : List Byte}
    (add : allowed (.addAttrStr .index [119] indexName))
    (reopen : allowed (.reopen true fun _ => [])) (run : addAndReopen indexName = some zei) :
    Reached toolkit allowed zei := by
  obtain ⟨opened, start, rest⟩ := bind_eq_some_iff.mp run
  apply reached_runAll _ (.start start) _ rest
  intro op mem
  rcases mem_cons.mp mem with rfl | mem
  · exact add
  · rcases mem_cons.mp mem with rfl | mem
    · exact reopen
    · cases mem

/-- `"title"` -/
def title : List Byte :=
  [116, 105, 116, 108, 101]

/-- A register with the index `title` after it has been opened again. -/
theorem ordinals_stable_title : ∃ zei, addAndReopen title = some zei ∧ zei.Stable toolkit := by
  have some : (addAndReopen title).isSome = true := by decide
  obtain ⟨zei, run⟩ := Option.isSome_iff_exists.mp some
  refine ⟨zei, run, ordinals_stable (by decide) (reached_addAndReopen ?_ ?_ run)⟩
  · exact ⟨⟨by decide, by decide⟩, by decide, by decide⟩
  · exact fun _ one mem => absurd mem not_mem_nil

/-- `"R&D"` -/
def ampersand : List Byte :=
  [82, 38, 68]

/-- The index `R&D` has another name after the register has been opened again. -/
theorem not_ordinals_stable :
    ¬∀ zei, Reached toolkit (fun _ => True) zei → zei.Stable toolkit := by
  intro claim
  have some : (addAndReopen ampersand).isSome = true := by decide
  obtain ⟨zei, run⟩ := Option.isSome_iff_exists.mp some
  have log : ((addAndReopen ampersand).map (·.log)) =
      .some [.created 1 irExplain1, .assigned 1 ⟨[119], .index, ampersand, 1⟩] := by decide
  have found : ((addAndReopen ampersand).bind fun zei => (zei.lookupOrd 1).map (·.1)) =
      .some (.some ([119], irExplain1, [82, 38, 97, 109, 112, 59, 68])) := by decide
  rw [run] at log found
  have log' : zei.log = [.created 1 irExplain1, .assigned 1 ⟨[119], .index, ampersand, 1⟩] :=
    Option.some.inj log
  obtain ⟨answer, next, lookup, exact⟩ :=
    (claim zei (reached_addAndReopen trivial trivial run)).lookupOrd 1
  rw [Option.bind_some, lookup] at found
  have there := (exact [119] irExplain1 ampersand).mpr
    ⟨1, .index, by simp [log'], by simp [log'], by simp [log']⟩
  have other : answer = Option.some ([119], irExplain1, [82, 38, 97, 109, 112, 59, 68]) :=
    Option.some.inj found
  exact absurd (there.symm.trans other) (by decide)

end

end Zebra.Explain
