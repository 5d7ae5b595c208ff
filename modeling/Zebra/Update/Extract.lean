import Zebra.Update.Flush
import Zebra.Update.Records

/-!
# Inserting, updating and deleting a record

`zebra_extract_record_stream` of `extract.c`: the record filter extracts keys, the request names its
record by number or by a match string, and the record, the match dictionary, the key block and the
statistics are changed.  What a filter finds in a stream is taken as given.
-/

namespace Zebra.Update

/-- `enum zebra_recctrl_action_t` -/
inductive Action where
  | insert
  | replace
  | delete
  | update
  | aDelete
  deriving DecidableEq

/-- `RECCTRL_EXTRACT_OK` and the other results of a filter. -/
inductive ExtractResult where
  | ok
  | eof
  | errorGeneric
  | errorNoSuchFilter
  | skip
  deriving DecidableEq

inductive ZebraRes where
  | ok
  | fail
  deriving DecidableEq

structure RecordAttr where
  /-- An `int`. -/
  recordSize : Int
  staticrank : Int

/-- What the update looks at in `rec->info`. -/
structure Record where
  attr : Option RecordAttr
  delKeys : List RecKey

/-- A record with `info` all null. -/
def Record.blank : Record := ⟨none, []⟩

def Record.initAttr (record : Record) : RecordAttr := record.attr.getD ⟨0, 0⟩

/-- The settings of `struct zebra_session` that the update looks at. -/
structure ZebraHandle where
  flagRw : Bool
  /-- `m_store_keys == 1` -/
  storeKeys : Bool
  staticrank : Bool
  segmentIndexing : Bool
  /-- The ordinal of the always-matches index `_ALLRECORDS`. -/
  allRecordsOrd : Nat
  /-- `get_match_from_spec` for `m_record_id`, of the keys and the file name. -/
  matchFromSpec : Option (List RecKey → List Byte → Option (List Byte))
  /-- The sum of `rec->size`. -/
  infoSize : Record → Nat

/-- What `recType->extract` finds in the stream. -/
structure Extraction where
  result : ExtractResult
  keys : List RecKey
  staticrank : Int
  matchCriteria : List Byte
  action : Action
  startOffset : Nat
  endOffset : Nat
  /-- `store_data_size`, if the filter set `store_data_buf`. -/
  storeData : Option Nat

/-- The arguments of `zebra_extract_record_stream`. -/
structure Request where
  action : Action
  /-- `*sysno`, unless it is a null pointer. -/
  sysno : Option Nat
  /-- `match_criteria`, empty for a null pointer. -/
  matchCriteria : List Byte
  fname : List Byte
  stream : Option Extraction
  streamless : stream = none → sysno.isSome ∧ (action = .delete ∨ action = .aDelete)

/-- `zh->reg` -/
structure Register where
  records : Records Record
  /-- `matchDict` for the database. -/
  matchDict : List Byte → Option Nat
  keys : RecKeys
  zei : Explain
  keyBlock : KeyBlock

/-- `INT_MAX + 1` -/
def intHalf : Nat := 2147483648

/-- Conversion to `int`. -/
def castInt (n : Int) : Int := n.bmod (2 * intHalf)

/-- The keys of the record once the filter is through. -/
def streamKeys (reg : Register) (req : Request) : RecKeys :=
  reg.keys.reset.writeAll (req.stream.elim [] Extraction.keys)

def finalAction (req : Request) : Action :=
  if req.action = .update then req.stream.elim .update Extraction.action else req.action

/-- `match_criteria`: the filter's own, if it gives one. -/
def finalCriteria (req : Request) : List Byte :=
  if (req.stream.elim [] Extraction.matchCriteria) ≠ [] then
    req.stream.elim [] Extraction.matchCriteria
  else req.matchCriteria

/-- `matchStr`; there is none if the match string of the record id is missing. -/
def matchStr (zh : ZebraHandle) (keys : RecKeys) (req : Request) : Option (Option (List Byte)) :=
  if req.sysno.isSome then some none
  else if finalCriteria req ≠ [] then some (some (finalCriteria req))
  else zh.matchFromSpec.elim (some none) fun fromSpec =>
    (fromSpec keys.entries req.fname).map some

/-- What `zebra_extract_record_stream` goes on to do. -/
inductive Plan where
  /-- Return at once. -/
  | stop (res : ZebraRes)
  | add (matchStr : Option (List Byte))
  | change (sysno : Nat) (matchStr : Option (List Byte)) (action : Action)

def planFor (reg : Register) (req : Request) (matchStr : Option (List Byte)) : Plan :=
  let sysno := req.sysno.getD ((matchStr.bind reg.matchDict).getD 0)
  if sysno = 0 then
    match finalAction req with
    | .delete => .stop .fail
    | .aDelete => .stop .ok
    | .replace => .stop .fail
    | .insert => .add matchStr
    | .update => .add matchStr
  else if finalAction req = .insert then .stop .fail
  else .change sysno matchStr (finalAction req)

/-- From the result of the filter to the record that is found. -/
def plan (zh : ZebraHandle) (reg : Register) (req : Request) : Plan :=
  match req.stream.elim .ok Extraction.result with
  | .skip => .stop .ok
  | .eof => .stop .fail
  | .errorGeneric => .stop .fail
  | .errorNoSuchFilter => .stop .fail
  | .ok =>
    if zh.flagRw then
      (matchStr zh (streamKeys reg req) req).elim (.stop .fail) (planFor reg req)
    else .stop .ok

def allMatchesAdd (zh : ZebraHandle) (keys : RecKeys) (sysno : Nat) : RecKeys :=
  keys.write
    { str := []
      key := [(zh.allRecordsOrd : Int), keys.customRecordId, 0] ++
        (if zh.segmentIndexing then [0] else []) ++ [(sysno : Int)] }

def recordKeys (zh : ZebraHandle) (reg : Register) (req : Request) (sysno : Nat) : RecKeys :=
  if req.stream.isSome then allMatchesAdd zh (streamKeys reg req) sysno else streamKeys reg req

/-- `extractCtrl.staticrank` -/
def extractedRank (req : Request) : Int := req.stream.elim 0 Extraction.staticrank

/-- `end_offset - start_offset` as an `int`. -/
def extent (e : Extraction) : Int := castInt ((e.endOffset : Int) - e.startOffset)

/-- `recordSize` in the end: stored data of the filter replaces the extent. -/
def finalSize (e : Extraction) : Int := e.storeData.elim (extent e) fun size => castInt size

/-- From `update file type` to `rec_put`. -/
def putRecord (zh : ZebraHandle) (reg : Register) (req : Request) (sysno : Nat)
    (attr : RecordAttr) : Register :=
  let stored := reg.keys.entries ≠ [] ∧ zh.storeKeys
  let delKeys := if stored then reg.keys.entries else []
  let attr := req.stream.elim attr fun e => { attr with recordSize := finalSize e }
  { reg with
    records := reg.records.put zh.infoSize sysno { attr := some attr, delKeys }
    keys := if stored then { reg.keys with entries := [] } else reg.keys
    zei := req.stream.elim reg.zei fun e => reg.zei.recordBytesIncrement (extent e) }

def addRecord (zh : ZebraHandle) (reg : Register) (req : Request) (matchStr : Option (List Byte)) :
    Except Register Register :=
  match reg.records.new zh.infoSize Record.blank with
  | none => .error reg
  | some (sysno, records) =>
    let keys := recordKeys zh reg req sysno
    let attr := Record.blank.initAttr
    let staticrank := if extractedRank req < 0 then 0 else extractedRank req
    let matchDict := matchStr.elim reg.matchDict fun matchStr =>
      Function.update reg.matchDict matchStr (some sysno)
    let flushed := flushRecordKeys2 zh.staticrank reg.zei reg.keyBlock sysno
      (some keys.entries) staticrank none attr.staticrank
    let reg := { reg with records, matchDict, keys, zei := flushed.1 }
    match flushed.2 with
    | .error keyBlock => .error { reg with keyBlock }
    | .ok keyBlock =>
      .ok (putRecord zh { reg with keyBlock } req sysno { attr with staticrank })

def deleteRecord (zh : ZebraHandle) (reg : Register) (sysno : Nat) (record : Record)
    (matchStr : Option (List Byte)) : Except Register Register :=
  let attr := record.initAttr
  let flushed := flushRecordKeys2 zh.staticrank reg.zei reg.keyBlock sysno
    none attr.staticrank (some record.delKeys) attr.staticrank
  let reg := { reg with zei := flushed.1 }
  match flushed.2 with
  | .error keyBlock => .error { reg with keyBlock }
  | .ok keyBlock =>
    let reg := { reg with keyBlock }
    -- "cannot delete file above, storeKeys false"
    if record.delKeys = [] then .ok reg
    else
      .ok { reg with
        matchDict := matchStr.elim reg.matchDict fun matchStr =>
          Function.update reg.matchDict matchStr none
        records := reg.records.del zh.infoSize sysno { record with attr := some attr } }

def updateRecord (zh : ZebraHandle) (reg : Register) (req : Request) (sysno : Nat)
    (record : Record) : Except Register Register :=
  let attr := record.initAttr
  let staticrank := extractedRank req
  let flushed := flushRecordKeys2 zh.staticrank reg.zei reg.keyBlock sysno
    (some reg.keys.entries) staticrank (some record.delKeys) attr.staticrank
  let reg := { reg with zei := flushed.1 }
  match flushed.2 with
  | .error keyBlock => .error { reg with keyBlock }
  | .ok keyBlock => .ok (putRecord zh { reg with keyBlock } req sysno { attr with staticrank })

def changeRecord (zh : ZebraHandle) (reg : Register) (req : Request) (sysno : Nat)
    (matchStr : Option (List Byte)) (action : Action) : Except Register Register :=
  match reg.records.get zh.infoSize sysno with
  -- `assert(rec)`
  | (none, _) => .error reg
  | (some record, records) =>
    let keys := recordKeys zh reg req sysno
    let zei := reg.zei.recordBytesIncrement (castInt (-record.initAttr.recordSize))
    let reg := { reg with records, keys, zei }
    if action = .delete ∨ action = .aDelete then deleteRecord zh reg sysno record matchStr
    else updateRecord zh reg req sysno record

/-- `zebra_extract_record_stream`; an error is a failed assertion. -/
def extractRecordStream (zh : ZebraHandle) (reg : Register) (req : Request) :
    Except Register (ZebraRes × Register) :=
  match plan zh reg req with
  | .stop res => .ok (res, { reg with keys := streamKeys reg req })
  | .add matchStr => (addRecord zh reg req matchStr).map fun reg => (.ok, reg)
  | .change sysno matchStr action =>
    (changeRecord zh reg req sysno matchStr action).map fun reg => (.ok, reg)

end Zebra.Update
