import Zebra.Dict.ScanOrder
import Zebra.Index.KeyBlock

/-!
# Scan

`rpn_scan_norm` goes through the terms of several indexes at once, from a start term back and then
forward.  Each index has a place of its own in the dictionary, and of the terms that have been found
the nearest is taken.
-/

namespace Zebra.Search

open Dict (ScanFunc dictScan Dictionary)
open TempFile (keySUEncode)

/-- `scan2_info_entry`; an `isam_p` of 0 says that the term has to be found. -/
structure ScanInfo where
  term : List Byte
  pre : List Byte
  isamP : Nat
  posToSave : Int
  deriving DecidableEq

/-- The `ISAM_P` in an info. -/
def isamPOf (info : List Byte) : Nat :=
  info.foldr (fun b rest => b + 256 * rest) 0

def scanHandle2 : ScanFunc Byte Byte ScanInfo := fun name info pos scanInfo =>
  if scanInfo.posToSave ≠ pos then
    (false, scanInfo)
  else if scanInfo.pre.isPrefixOf name then
    (false, { scanInfo with term := name.drop scanInfo.pre.length, isamP := isamPOf info })
  else
    (true, scanInfo)

def firstInFieldStr : List Byte := [1, 94]

/-- `ZebraScanEntry`, with the term as it is in the index. -/
structure ScanEntry where
  term : List Byte
  occurrences : Nat
  deriving DecidableEq

/-- The records of each posting list, and those of the set that limits them. -/
structure Postings where
  records : Nat → List Nat
  limitSet : Option (List Nat)
  /-- attribute 12 of the start term, or else that of the handle -/
  approxLimit : Int
  /-- what `rset_close` takes, from how far `rset_pos` is, for the number of records of posting
  lists that have more of them than the limit; it is floating-point arithmetic -/
  estimate : List Nat → Nat

/-- The records of the union of posting lists within the limit set. -/
def Postings.hits (postings : Postings) (isamPs : List Nat) : Nat :=
  ((isamPs.flatMap postings.records).dedup.filter fun sysno =>
    postings.limitSet.all (sysno ∈ ·)).length

/-- `zebra_count_set`: it stops behind the limit, and `rset_close` estimates the rest; without a
limit above 0 the one record read is all that counts. -/
def Postings.count (postings : Postings) (isamPs : List Nat) : Nat :=
  if postings.hits isamPs ≤ postings.approxLimit then postings.hits isamPs
  else if postings.approxLimit ≤ 0 then min (postings.hits isamPs) 1
  else postings.estimate isamPs

def ScanInfo.has (scanInfo : ScanInfo) (term : List Byte) : Bool :=
  scanInfo.isamP != 0 && scanInfo.term == term

/-- `scan_save_set`: the number of records of a term, and the entries, of which those with the term
have to go on. -/
def scanSaveSet (postings : Postings) (ar : List ScanInfo) (term : List Byte) :
    Nat × List ScanInfo :=
  (if term = firstInFieldStr then 0
    else postings.count ((ar.filter (·.has term)).map ScanInfo.isamP),
    ar.map fun scanInfo => if scanInfo.has term then { scanInfo with isamP := 0 } else scanInfo)

/-- The call of `dict_scan` for an entry that has to find a term. -/
def findTerm (d : Dictionary Byte Byte) (before after : Nat) (posToSave : Int)
    (scanInfo : ScanInfo) : ScanInfo :=
  if scanInfo.isamP = 0 then
    dictScan scanHandle2 d.toDictStruct d.depth (scanInfo.pre ++ scanInfo.term) before after
      { scanInfo with posToSave := posToSave }
  else
    scanInfo

def pickTerm (nearer : List Byte → List Byte → Bool) (ar : List ScanInfo) : Option (List Byte) :=
  ar.foldl (fun best scanInfo =>
    if scanInfo.isamP ≠ 0 ∧ best.all (nearer scanInfo.term) then some scanInfo.term else best) none

/-- What the two loops differ in. -/
structure Direction where
  /-- find a term, in the first round or in a later one -/
  find : Bool → ScanInfo → ScanInfo
  /-- whether a term comes before another in the direction -/
  nearer : List Byte → List Byte → Bool
  step : Int
  goOn : Int → Bool

/-- A loop of `rpn_scan_norm`: the place that is left, and `glist`. -/
def scanLoop (postings : Postings) (dir : Direction) (numEntries : Nat) :
    Nat → Bool → Int → List ScanInfo → (Int → Option ScanEntry) →
      Option (Int × (Int → Option ScanEntry))
  | 0, _, _, _, _ => none
  | fuel + 1, first, pos, ar, glist =>
    if dir.goOn pos then
      let ar := ar.map (dir.find first)
      match pickTerm dir.nearer ar with
      | none => some (pos, glist)
      | some term =>
        let saved := scanSaveSet postings ar term
        let glist :=
          if term ≠ firstInFieldStr ∧ 0 ≤ pos ∧ pos < numEntries then
            Function.update glist pos (some ⟨term, saved.1⟩)
          else
            glist
        scanLoop postings dir numEntries fuel false
          (if 0 < saved.1 then pos + dir.step else pos) saved.2 glist
    else
      some (pos, glist)

def backward (d : Dictionary Byte Byte) : Direction where
  find _ := findTerm d 1 0 (-1)
  nearer term best := best < term
  step := -1
  goOn pos := 0 ≤ pos

/-- The loop for the start term and those after it; in the first round the term itself is found. -/
def forward (d : Dictionary Byte Byte) (numEntries : Nat) : Direction where
  find first := findTerm d 0 (if first then 1 else 2) 1
  nearer term best := term < best
  step := 1
  goOn pos := pos < numEntries

/-- What `rpn_scan_norm` returns. -/
structure ScanResult where
  position : Int
  numEntries : Nat
  list : List (Option ScanEntry)
  isPartial : Bool
  deriving DecidableEq

/-- The end of `rpn_scan_norm`: the start term and those after it, with `numEntries` still
wanted. -/
def scanAfter (d : Dictionary Byte Byte) (postings : Postings) (fuel : Nat) (ar : List ScanInfo)
    (position : Int) (numEntries : Nat) (glist : Int → Option ScanEntry) (isPartial : Bool) :
    Option ScanResult :=
  (scanLoop postings (forward d numEntries) numEntries fuel true (position - 1) ar glist).map
    fun (pos, glist) =>
      let numFound := if pos < numEntries then pos.toNat else numEntries
      { position := position
        numEntries := numFound
        list := (List.range numFound).map fun i : Nat => glist i
        isPartial := isPartial || pos < numEntries }

def startInfo (term : List Byte) (ord : Nat) : ScanInfo :=
  { term := term, pre := keySUEncode ord, isamP := 0, posToSave := 0 }

/-- `rpn_scan_norm` with the start term in the form that the index has. -/
def rpnScanNorm (d : Dictionary Byte Byte) (postings : Postings) (ords : List Nat)
    (term : List Byte) (position : Int) (numEntries : Nat) : Option ScanResult := do
  let ar := ords.map (startInfo term)
  let fuel := ords.length * (d.keys d.depth).length + 1
  let (pos, glist) ←
    scanLoop postings (backward d) numEntries fuel true (position - 2) ar fun _ => none
  let dif := 1 + pos
  if 0 < dif then
    -- without all terms before the start the list begins with those that are there
    if dif < numEntries then
      scanAfter d postings fuel ar (position - dif) (numEntries - dif.toNat)
        (fun i => glist (dif + i)) true
    else
      scanAfter d postings fuel ar (position - dif) 0 glist true
  else
    scanAfter d postings fuel ar position numEntries glist false

end Zebra.Search
