import Zebra.Lib.Varint

/-!
# The explain information

The databases of a register, the indexes of each with their ordinals, and the two counters that
ordinals are taken from.  All of it is kept in memory, written to records by a flush and read back
from them, a database and its attribute details not before they are needed.
-/

namespace Zebra.Explain

/-- `zinfo_index_category_t`. -/
inductive IndexCategory where
  | index
  | sort
  | alwaysmatches
  | anchor
  deriving DecidableEq

/-- An index of a database and the ordinal it has been given. -/
structure Index where
  indexType : List Byte
  cat : IndexCategory
  str : List Byte
  ordinal : Nat
  deriving DecidableEq

structure SUInfo extends Index where
  docOccurrences : Int
  termOccurrences : Int
  deriving DecidableEq

/-- An element `database` of the root record. -/
structure TargetDatabase where
  name : List Byte
  id : Nat
  attributeDetailsId : Nat
  deriving DecidableEq

/-- The element `zebraInfo` of the root record. -/
structure TargetInfo where
  databaseList : List TargetDatabase
  ordinalSU : Nat
  ordinalDatabase : Nat
  runNumber : Int
  deriving DecidableEq

/-- What a record says; texts stand here as they are in the record. -/
inductive StoreData where
  /-- the root record, before its first flush without `zebraInfo` -/
  | target (zebraInfo : Option TargetInfo)
  | database (recordCount recordBytes : Int) (ordinalDatabase : Nat)
  | attributeDetails (attrlist : List SUInfo)
  | categoryList
  /-- a record that has been made and not been written -/
  | blank
  deriving DecidableEq

/-- The records by system number; a number is never used again. -/
structure Records where
  info : Nat → Option StoreData
  indexLast : Nat

def Records.empty : Records where
  info _ := none
  indexLast := 0

def Records.put (records : Records) (sysno : Nat) (data : StoreData) : Records :=
  { records with info := Function.update records.info sysno (some data) }

def Records.del (records : Records) (sysno : Nat) : Records :=
  { records with info := Function.update records.info sysno none }

def Records.new (records : Records) : Nat × Records :=
  (records.indexLast + 1,
    { info := Function.update records.info (records.indexLast + 1) (some .blank)
      indexLast := records.indexLast + 1 })

def Records.createRecord (records : Records) (sysno : Nat) : Option (Nat × Records) :=
  if sysno = 0 then
    some records.new
  else
    (records.info sysno).map fun _ => (sysno, records)

/-- `rec_get` where the caller uses the record without a look at it. -/
def Records.get (records : Records) (sysno : Nat) : Option StoreData :=
  if sysno = 0 then none else records.info sysno

structure AttributeDetails where
  SUInfo : List SUInfo
  sysno : Nat
  dirty : Bool
  readFlag : Bool

/-- `zebDatabaseInfoB`. -/
structure DatabaseInfo where
  attributeDetails : AttributeDetails
  ordinalDatabase : Nat
  databaseName : List Byte
  recordCount : Int
  recordBytes : Int
  sysno : Nat
  readFlag : Bool
  dirty : Bool

/-- What happens to ordinals: a database is created under a number of its own and removed, and an
index of it is assigned its ordinal. -/
inductive Event where
  | created (database : Nat) (name : List Byte)
  | assigned (database : Nat) (index : Index)
  | removed (database : Nat)
  deriving DecidableEq

/-- `zebraExplainInfo`.  Databases are known by their place in `memory`; `log` is the history of the
register, which nothing reads. -/
structure ExplainInfo where
  ordinalSU : Nat
  ordinalDatabase : Nat
  runNumber : Int
  dirty : Bool
  writeFlag : Bool
  records : Records
  categoryDirty : Bool
  databaseInfo : List Nat
  curDatabaseInfo : Option Nat
  memory : Nat → DatabaseInfo
  allocated : Nat
  log : List Event

/-- The two functions of the toolkit that the texts go through: `yaz_matchstr`, which compares
names, and `wrbuf_xmlputs`, which writes them. -/
structure Yaz where
  matchstr : List Byte → List Byte → Bool
  xmlputs : List Byte → List Byte

/-- Whether a text is there and stands in a record as it is. -/
def Yaz.Plain (yaz : Yaz) (text : List Byte) : Prop :=
  text ≠ [] ∧ yaz.xmlputs text = text

instance (yaz : Yaz) (text : List Byte) : Decidable (yaz.Plain text) :=
  inferInstanceAs (Decidable (text ≠ [] ∧ yaz.xmlputs text = text))

def toLower (c : Byte) : Byte :=
  if 65 ≤ c ∧ c ≤ 90 then c + 32 else c

/-- `STRCASECMP(a, b) == 0`. -/
def sameName (a b : List Byte) : Bool :=
  a.map toLower == b.map toLower

/-- What follows the last `/` of a database name. -/
def databaseN (database : List Byte) : List Byte :=
  (database.reverse.takeWhile (· != 47)).reverse

/-- `"IR-Explain-1"`. -/
def irExplain1 : List Byte :=
  [73, 82, 45, 69, 120, 112, 108, 97, 105, 110, 45, 49]

/-- The two records of a database. -/
inductive Part where
  | database
  | details
  deriving DecidableEq

namespace DatabaseInfo

def sysnoOf (zdi : DatabaseInfo) : Part → Nat
  | .database => zdi.sysno
  | .details => zdi.attributeDetails.sysno

def isDirty (zdi : DatabaseInfo) : Part → Bool
  | .database => zdi.dirty
  | .details => zdi.attributeDetails.dirty

def isUnread (zdi : DatabaseInfo) : Part → Bool
  | .database => zdi.readFlag
  | .details => zdi.attributeDetails.readFlag

/-- A part no longer has to be written and is at a system number. -/
def setWritten (zdi : DatabaseInfo) (sysno : Nat) : Part → DatabaseInfo
  | .database => { zdi with dirty := false, sysno := sysno }
  | .details => { zdi with
      attributeDetails := { zdi.attributeDetails with dirty := false, sysno := sysno } }

/-- The attributes of a database become another list. -/
def setSUInfo (zdi : DatabaseInfo) (sui : List SUInfo) (dirtyMark : Bool) : DatabaseInfo :=
  { zdi with
    attributeDetails := { zdi.attributeDetails with
      SUInfo := sui
      dirty := zdi.attributeDetails.dirty || dirtyMark } }

end DatabaseInfo

/-- The first element with a property, and the others. -/
def takeOut {α : Type} (p : α → Bool) : List α → Option (α × List α)
  | [] => none
  | x :: xs =>
    if p x then
      some (x, xs)
    else
      (takeOut p xs).map fun found => (found.1, x :: found.2)

def SUInfo.written (yaz : Yaz) (sui : SUInfo) : SUInfo :=
  { sui with indexType := yaz.xmlputs sui.indexType, str := yaz.xmlputs sui.str }

/-- What is read of an attribute: without a type it is one of words, and without a name it is left
out. -/
def SUInfo.readBack (sui : SUInfo) : Option SUInfo :=
  if sui.str = [] then
    none
  else
    some { sui with indexType := if sui.indexType = [] then [119] else sui.indexType }

namespace ExplainInfo

variable (yaz : Yaz)

def setDatabase (zei : ExplainInfo) (zdi : Nat) (info : DatabaseInfo) : ExplainInfo :=
  { zei with memory := Function.update zei.memory zdi info }

def readAttributeDetails (zei : ExplainInfo) (zdi : Nat) : Option ExplainInfo :=
  let info := zei.memory zdi
  match zei.records.get info.attributeDetails.sysno with
  | some (.attributeDetails attrlist) =>
    some (zei.setDatabase zdi { info with
      attributeDetails := { info.attributeDetails with
        SUInfo := attrlist.filterMap SUInfo.readBack
        readFlag := false } })
  | _ => none

def readDatabase (zei : ExplainInfo) (zdi : Nat) : Option ExplainInfo :=
  let info := zei.memory zdi
  match zei.records.get info.sysno with
  | some (.database recordCount recordBytes ordinalDatabase) =>
    some (zei.setDatabase zdi { info with
      recordCount := recordCount
      recordBytes := recordBytes
      ordinalDatabase := ordinalDatabase
      readFlag := false })
  | _ => none

/-- The attribute details are read if they have not been. -/
def needAttributeDetails (zei : ExplainInfo) (zdi : Nat) : Option ExplainInfo :=
  if (zei.memory zdi).attributeDetails.readFlag then zei.readAttributeDetails zdi else some zei

def needDatabase (zei : ExplainInfo) (zdi : Nat) : Option ExplainInfo :=
  if (zei.memory zdi).readFlag then zei.readDatabase zdi else some zei

def findDatabase (zei : ExplainInfo) (database : List Byte) : Option Nat :=
  zei.databaseInfo.find? fun zdi => sameName (zei.memory zdi).databaseName database

/-- `zebraExplain_curDatabase`: whether there is such a database. -/
def curDatabase (zei : ExplainInfo) (database : List Byte) : Option (Bool × ExplainInfo) :=
  if zei.curDatabaseInfo.any fun cur => sameName (zei.memory cur).databaseName database then
    some (true, zei)
  else
    match zei.findDatabase (databaseN database) with
    | none => some (false, zei)
    | some zdi => do
        let zei ← zei.needDatabase zdi
        let zei ← zei.needAttributeDetails zdi
        return (true, { zei with curDatabaseInfo := some zdi })

def newInfo (zei : ExplainInfo) (database : List Byte) : DatabaseInfo where
  attributeDetails := { SUInfo := [], sysno := 0, dirty := true, readFlag := false }
  ordinalDatabase := zei.ordinalDatabase
  databaseName := databaseN database
  recordCount := 0
  recordBytes := 0
  sysno := 0
  readFlag := false
  dirty := true

/-- `zebraExplain_newDatabase`: whether there was no such database. -/
def newDatabase (zei : ExplainInfo) (database : List Byte) : Bool × ExplainInfo :=
  match zei.findDatabase (databaseN database) with
  | some _ => (false, zei)
  | none =>
    (true,
      { zei.setDatabase zei.allocated (zei.newInfo database) with
        databaseInfo := zei.allocated :: zei.databaseInfo
        allocated := zei.allocated + 1
        ordinalDatabase := zei.ordinalDatabase + 1
        curDatabaseInfo := some zei.allocated
        dirty := true
        log := zei.log ++ [.created zei.ordinalDatabase (databaseN database)] })

/-- `zebraExplain_lookup_attr_str`: the ordinal of an index of the current database, if there is
such an index. -/
def lookupAttrStr (zei : ExplainInfo) (cat : IndexCategory) (indexType : Option (List Byte))
    (str : List Byte) : Option (Option Nat × ExplainInfo) := do
  let cur ← zei.curDatabaseInfo
  let info := zei.memory cur
  match takeOut (fun sui => indexType.all (sui.indexType == ·) && sui.cat == cat
      && yaz.matchstr sui.str str) info.attributeDetails.SUInfo with
  | none => some (none, zei)
  | some (found, others) =>
    some (some found.ordinal, zei.setDatabase cur (info.setSUInfo (found :: others) false))

def addAttrStr (zei : ExplainInfo) (cat : IndexCategory) (indexType indexName : List Byte) :
    Option (Nat × ExplainInfo) := do
  let cur ← zei.curDatabaseInfo
  let info := zei.memory cur
  let index : Index :=
    { indexType := indexType, cat := cat, str := indexName, ordinal := zei.ordinalSU }
  let sui : SUInfo := { index with docOccurrences := 0, termOccurrences := 0 }
  return (zei.ordinalSU,
    { zei.setDatabase cur (info.setSUInfo (sui :: info.attributeDetails.SUInfo) true) with
      dirty := true
      ordinalSU := zei.ordinalSU + 1
      log := zei.log ++ [.assigned info.ordinalDatabase index] })

/-- The walk of `zebraExplain_get_sui_info` over databases; `adjust` is what is done to the
attribute that is found. -/
def getSuiInfoIn (ord : Nat) (dirtyMark : Bool) (adjust : SUInfo → SUInfo) :
    List Nat → ExplainInfo → Option (Option (SUInfo × List Byte) × ExplainInfo)
  | [], zei => some (none, zei)
  | zdb :: rest, zei => do
      let zei ← zei.needAttributeDetails zdb
      let info := zei.memory zdb
      match takeOut (·.ordinal == ord) info.attributeDetails.SUInfo with
      | none => getSuiInfoIn ord dirtyMark adjust rest zei
      | some (found, others) =>
        return (some (found, info.databaseName),
          zei.setDatabase zdb (info.setSUInfo (adjust found :: others) dirtyMark))

/-- `zebraExplain_lookup_ord`: the type, the database and the name of the index with an ordinal. -/
def lookupOrd (zei : ExplainInfo) (ord : Nat) :
    Option (Option (List Byte × List Byte × List Byte) × ExplainInfo) := do
  let (found, zei) ← getSuiInfoIn ord false id zei.databaseInfo zei
  return (found.map fun sui => (sui.1.indexType, sui.2, sui.1.str), zei)

/-- Occurrences of terms and documents are added to an attribute. -/
def SUInfo.adjust (termDelta docDelta : Int) (sui : SUInfo) : SUInfo :=
  { sui with
    termOccurrences := sui.termOccurrences + termDelta
    docOccurrences := sui.docOccurrences + docDelta }

def ordAdjustOccurrences (zei : ExplainInfo) (ord : Nat) (termDelta docDelta : Int) :
    Option ExplainInfo :=
  (getSuiInfoIn ord true (SUInfo.adjust termDelta docDelta) zei.databaseInfo zei).map (·.2)

def recordBytesIncrement (zei : ExplainInfo) (adjustNum : Int) : Option ExplainInfo := do
  let cur ← zei.curDatabaseInfo
  let info := zei.memory cur
  if adjustNum = 0 then
    return zei
  else
    return zei.setDatabase cur
      { info with recordBytes := info.recordBytes + adjustNum, dirty := true }

def recordCountIncrement (zei : ExplainInfo) (adjustNum : Int) : Option ExplainInfo := do
  let cur ← zei.curDatabaseInfo
  let info := zei.memory cur
  if adjustNum = 0 then
    return zei
  else
    return zei.setDatabase cur
      { info with recordCount := info.recordCount + adjustNum, dirty := true }

def runNumberIncrement (zei : ExplainInfo) (adjustNum : Int) : ExplainInfo :=
  { zei with dirty := zei.dirty || adjustNum != 0, runNumber := zei.runNumber + adjustNum }

/-- What the extraction of a record does to the explain information. -/
inductive Extracted where
  /-- a token of an index, which is added when it is not there -/
  | token (cat : IndexCategory) (indexType indexName : List Byte)
  /-- occurrences of an index -/
  | occurrences (ord : Nat) (termDelta docDelta : Int)
  /-- a record more or less -/
  | records (adjustNum : Int)

def extractOne (zei : ExplainInfo) : Extracted → Option ExplainInfo
  | .token cat indexType indexName => do
      let (ch, zei) ← zei.lookupAttrStr yaz cat (some indexType) indexName
      if ch.isSome then
        return zei
      else
        return (← zei.addAttrStr cat indexType indexName).2
  | .occurrences ord termDelta docDelta => zei.ordAdjustOccurrences ord termDelta docDelta
  | .records adjustNum => zei.recordCountIncrement adjustNum

/-- `zebra_extract_explain`: without the database of the explain records it aborts. -/
def updateFunc (zei : ExplainInfo) (extracted : List Extracted) : Option ExplainInfo := do
  let (there, zei) ← zei.curDatabase irExplain1
  if there then
    extracted.foldlM (extractOne yaz) zei
  else
    none

/-- `zebraExplain_removeDatabase`: whether the current database was there to be removed. -/
def removeDatabase (zei : ExplainInfo) (extracted : Nat → List Extracted) :
    Option (Bool × ExplainInfo) :=
  match zei.curDatabaseInfo.filter (· ∈ zei.databaseInfo) with
  | none => some (false, zei)
  | some zdi => do
      let info := zei.memory zdi
      let detailsSysno := info.attributeDetails.sysno
      let _ ← zei.records.get detailsSysno
      let zei ← updateFunc yaz { zei with dirty := true } (extracted detailsSysno)
      let zei := { zei with records := zei.records.del detailsSysno }
      let _ ← zei.records.get info.sysno
      let zei ← updateFunc yaz zei (extracted info.sysno)
      return (true,
        { zei with
          records := zei.records.del info.sysno
          databaseInfo := zei.databaseInfo.erase zdi
          log := zei.log ++ [.removed info.ordinalDatabase] })

/-- The keys of a record that is being written are extracted if that is asked for. -/
def updateKeys (zei : ExplainInfo) (keyFlush : Bool) (extracted : List Extracted) :
    Option ExplainInfo :=
  if keyFlush then updateFunc yaz zei extracted else some zei

/-- What is written of a part; the number of records is that of before the extraction. -/
def content (zei : ExplainInfo) (zdi : Nat) (recordCount : Int) : Part → StoreData
  | .database =>
    .database recordCount (zei.memory zdi).recordBytes (zei.memory zdi).ordinalDatabase
  | .details =>
    .attributeDetails ((zei.memory zdi).attributeDetails.SUInfo.map (SUInfo.written yaz))

def writePart (part : Part) (zei : ExplainInfo) (zdi : Nat) (keyFlush : Bool)
    (extracted : Nat → List Extracted) : Option ExplainInfo :=
  let info := zei.memory zdi
  if info.isDirty part then
    match zei.records.createRecord (info.sysnoOf part) with
    | none => some (zei.setDatabase zdi (info.setWritten (info.sysnoOf part) part))
    | some (sysno, records) => do
        let zei := { zei.setDatabase zdi (info.setWritten sysno part) with records := records }
        let zei ← updateKeys yaz zei keyFlush (extracted sysno)
        return { zei with
          records := zei.records.put sysno (content yaz zei zdi info.recordCount part) }
  else
    some zei

def writeDatabase (zei : ExplainInfo) (zdi : Nat) (keyFlush : Bool)
    (extracted : Nat → List Extracted) : Option ExplainInfo :=
  writePart yaz .database zei zdi keyFlush extracted

def writeAttributeDetails (zei : ExplainInfo) (zdi : Nat) (keyFlush : Bool)
    (extracted : Nat → List Extracted) : Option ExplainInfo :=
  writePart yaz .details zei zdi keyFlush extracted

/-- The element `zebraInfo` that is written. -/
def targetInfo (zei : ExplainInfo) : TargetInfo where
  databaseList := zei.databaseInfo.map fun zdi =>
    { name := yaz.xmlputs (zei.memory zdi).databaseName
      id := (zei.memory zdi).sysno
      attributeDetailsId := (zei.memory zdi).attributeDetails.sysno }
  ordinalSU := zei.ordinalSU
  ordinalDatabase := zei.ordinalDatabase
  runNumber := zei.runNumber

def writeTarget (zei : ExplainInfo) (keyFlush : Bool) (extracted : Nat → List Extracted) :
    Option ExplainInfo :=
  if zei.dirty then do
    let _ ← zei.records.get 1
    let zei := { zei with dirty := false }
    let zei ← updateKeys yaz zei keyFlush (extracted 1)
    return { zei with records := zei.records.put 1 (.target (some (targetInfo yaz zei))) }
  else
    some zei

/-- `zebraExplain_writeCategoryList`, which is always made with a new record. -/
def writeCategoryList (zei : ExplainInfo) (keyFlush : Bool) (extracted : Nat → List Extracted) :
    Option ExplainInfo :=
  if zei.categoryDirty then do
    let (sysno, records) := zei.records.new
    let zei := { zei with categoryDirty := false, records := records }
    let zei ← updateKeys yaz zei keyFlush (extracted sysno)
    return { zei with records := zei.records.put sysno .categoryList }
  else
    some zei

def writeDatabases (keyFlush : Bool) (extracted : Nat → List Extracted) (zdis : List Nat)
    (zei : ExplainInfo) : Option ExplainInfo :=
  zdis.foldlM (fun zei zdi => do
    let zei ← writeDatabase yaz zei zdi keyFlush extracted
    writeAttributeDetails yaz zei zdi keyFlush extracted) zei

/-- `zebraExplain_flush`: all is written twice, as the extraction of a record may change what has
been written. -/
def flush (zei : ExplainInfo) (extracted : Nat → List Extracted) : Option ExplainInfo :=
  if zei.writeFlag then do
    let zei ← writeDatabases yaz true extracted zei.databaseInfo zei
    let zei ← writeTarget yaz zei true extracted
    let zei ← writeCategoryList yaz zei true extracted
    let zei ← writeDatabases yaz false extracted zei.databaseInfo zei
    writeTarget yaz zei false extracted
  else
    some zei

def readInfo (database : TargetDatabase) : DatabaseInfo where
  attributeDetails :=
    { SUInfo := [], sysno := database.attributeDetailsId, dirty := false, readFlag := true }
  ordinalDatabase := 0
  databaseName := database.name
  recordCount := 0
  recordBytes := 0
  sysno := database.id
  readFlag := true
  dirty := false

def initial (records : Records) (writeFlag : Bool) : ExplainInfo where
  ordinalSU := 1
  ordinalDatabase := 1
  runNumber := 0
  dirty := false
  writeFlag := writeFlag
  records := records
  categoryDirty := false
  databaseInfo := []
  curDatabaseInfo := none
  memory _ := readInfo ⟨[], 0, 0⟩
  allocated := 0
  log := []

def ofTarget (records : Records) (writeFlag : Bool) (target : TargetInfo) : ExplainInfo :=
  { initial records writeFlag with
    ordinalSU := target.ordinalSU
    ordinalDatabase := target.ordinalDatabase
    runNumber := target.runNumber
    databaseInfo := List.range target.databaseList.length
    allocated := target.databaseList.length
    memory := fun zdi => readInfo (target.databaseList.getD zdi ⟨[], 0, 0⟩) }

/-- `zebraExplain_open`: it fails on a root record without `zebraInfo`, and on a database without a
name. -/
def openInfo (records : Records) (writeFlag : Bool) : Option ExplainInfo :=
  match records.info 1 with
  | some (.target (some target)) =>
    if target.databaseList.all (·.name != []) then
      some (ofTarget records writeFlag target)
    else
      none
  | some _ => none
  | none =>
    let records :=
      if writeFlag then records.new.2.put records.new.1 (.target none) else records
    some { (initial records writeFlag).newDatabase irExplain1 |>.2 with categoryDirty := true }

/-- `zebraExplain_close`, and `zebraExplain_open` again. -/
def reopen (zei : ExplainInfo) (writeFlag : Bool) (extracted : Nat → List Extracted) :
    Option ExplainInfo := do
  let zei ← flush yaz zei extracted
  let opened ← openInfo zei.records writeFlag
  return { opened with log := zei.log ++ opened.log }

end ExplainInfo

open ExplainInfo (Extracted)

/-- What is done with the explain information; an extraction comes with what it does for each
record. -/
inductive Op where
  | curDatabase (database : List Byte)
  | newDatabase (database : List Byte)
  | lookupAttrStr (cat : IndexCategory) (indexType : Option (List Byte)) (str : List Byte)
  | addAttrStr (cat : IndexCategory) (indexType indexName : List Byte)
  | lookupOrd (ord : Nat)
  | ordAdjustOccurrences (ord : Nat) (termDelta docDelta : Int)
  | recordBytesIncrement (adjustNum : Int)
  | recordCountIncrement (adjustNum : Int)
  | runNumberIncrement (adjustNum : Int)
  | removeDatabase (extracted : Nat → List Extracted)
  | flush (extracted : Nat → List Extracted)
  | reopen (writeFlag : Bool) (extracted : Nat → List Extracted)

/-- Whether an operation is only done by those who write to the register. -/
def Op.writes : Op → Bool
  | .curDatabase _ | .lookupAttrStr _ _ _ | .lookupOrd _ | .flush _ | .reopen _ _ => false
  | _ => true

/-- Whether an operation only selects a database or looks something up. -/
def Op.looksUp : Op → Bool
  | .curDatabase _ | .lookupAttrStr _ _ _ | .lookupOrd _ => true
  | _ => false

def Op.run (yaz : Yaz) (zei : ExplainInfo) : Op → Option ExplainInfo
  | .curDatabase database => (zei.curDatabase database).map (·.2)
  | .newDatabase database => some (zei.newDatabase database).2
  | .lookupAttrStr cat indexType str => (zei.lookupAttrStr yaz cat indexType str).map (·.2)
  | .addAttrStr cat indexType indexName => (zei.addAttrStr cat indexType indexName).map (·.2)
  | .lookupOrd ord => (zei.lookupOrd ord).map (·.2)
  | .ordAdjustOccurrences ord termDelta docDelta =>
    zei.ordAdjustOccurrences ord termDelta docDelta
  | .recordBytesIncrement adjustNum => zei.recordBytesIncrement adjustNum
  | .recordCountIncrement adjustNum => zei.recordCountIncrement adjustNum
  | .runNumberIncrement adjustNum => some (zei.runNumberIncrement adjustNum)
  | .removeDatabase extracted => (zei.removeDatabase yaz extracted).map (·.2)
  | .flush extracted => zei.flush yaz extracted
  | .reopen writeFlag extracted => zei.reopen yaz writeFlag extracted

/-- What operations have made of a new register whose first session writes; an operation that
aborts reaches nothing. -/
inductive Reached (yaz : Yaz) (allowed : Op → Prop) : ExplainInfo → Prop where
  | start {zei : ExplainInfo} (opened : ExplainInfo.openInfo .empty true = some zei) :
      Reached yaz allowed zei
  | step {zei next : ExplainInfo} (op : Op) (before : Reached yaz allowed zei)
      (may : allowed op) (writes : op.writes = true → zei.writeFlag = true)
      (run : op.run yaz zei = some next) : Reached yaz allowed next

end Zebra.Explain
