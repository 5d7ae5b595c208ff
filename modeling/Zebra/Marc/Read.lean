import Zebra.Lib.Varint

/-!
# Reading MARC records

`mod_grs_marc.c`: `grs_read_iso2709` reads a record of ISO 2709 into a buffer of fixed size, scans
its directory and builds the tree from the offsets in it.  Every access to the buffer is checked
here, and so is every copy from it: a run that accesses a place outside of the buffer, or copies
from behind the record, stops there.
-/

namespace Zebra.Marc

/-- Where a run ends that does not return. -/
inductive Stop where
  /-- A loop takes more rounds than what has been given for it. -/
  | fuel
  /-- A place outside of the buffer is accessed. -/
  | outside
  /-- Bytes that are not of the record are copied. -/
  | behind
  deriving DecidableEq

/-- `sizeof(buf)` -/
def bufSize : Nat := 100000

/-- `ISO2709_RS` -/
def recordSeparator : Byte := 29

/-- `ISO2709_FS` -/
def fieldSeparator : Byte := 30

/-- `ISO2709_IDFS` -/
def identifierSeparator : Byte := 31

def isDigit (c : Byte) : Bool := 48 ≤ c && c ≤ 57

def asBytes (s : String) : List Byte := s.toList.map Char.toNat

def cString (s : List Byte) : List Byte := s.takeWhile (· != 0)

/-- `%d` -/
def decimal (n : Nat) : List Byte := (Nat.toDigits 10 n).map Char.toNat

/-- A tree of `data1_node`s, with tags and texts. -/
inductive Data1Node where
  | tag (name : List Byte) (attributes : List (List Byte × List Byte)) (child : List Data1Node)
  | text (data : List Byte)

def bytes (buf : Nat → Byte) (i n : Nat) : List Byte := (List.range n).map fun j => buf (i + j)

/-- `buf[i]` -/
def byteAt (buf : Nat → Byte) (i : Nat) : Except Stop Byte :=
  if i < bufSize then .ok (buf i) else .error .outside

/-- `readf` to a place of the buffer, which holds `contents` up to there. -/
def readf (contents : List Byte) (n : Nat) (stream : List Byte) :
    Except Stop (List Byte × List Byte) :=
  if contents.length + n ≤ bufSize then .ok (contents ++ stream.take n, stream.drop n)
  else .error .outside

/-- The bytes at the front that are no digits are skipped. -/
def skipBad : List Byte → List Byte → Option (List Byte × List Byte)
  | buf, [] => if (buf.head?.any isDigit) = true then some (buf, []) else none
  | buf, c :: stream =>
    if (buf.head?.any isDigit) = true then some (buf, c :: stream)
    else skipBad (buf.tail ++ [c]) stream

/-- Bytes are added until the last is a record separator. -/
def skipToSeparator (contents : List Byte) : List Byte → Except Stop (List Byte × List Byte)
  | [] => .ok (contents, [])
  | c :: stream =>
    if contents.getLast? = some recordSeparator then .ok (contents, c :: stream)
    else if bufSize - 2 < contents.length then .ok (contents, c :: stream)
    else if contents.length + 1 ≤ bufSize then skipToSeparator (contents ++ [c]) stream
    else .error .outside

structure Loaded where
  buf : Nat → Byte
  recordLength : Nat

/-- The record is read into the buffer, which has `garbage` before; none where it is not there. -/
def loadRecord (atoiN : List Byte → Nat) (garbage : Nat → Byte) (stream : List Byte) :
    Except Stop (Option Loaded) :=
  if stream.length < 5 then .ok none
  else
    match skipBad (stream.take 5) (stream.drop 5) with
    | none => .ok none
    | some (first, stream) =>
      if atoiN first < 25 then .ok none
      else
        (readf first (atoiN first - 5) stream).bind fun read =>
          if read.1.length < atoiN first then .ok none
          else
            (skipToSeparator read.1 read.2).bind fun skipped =>
              -- one byte more shows whether there is another record
              (readf skipped.1 1 skipped.2).map fun ahead =>
                some
                  { buf := fun i => ahead.1.getD i (garbage i)
                    recordLength := skipped.1.length }

/-- What the leader says, with the lengths that a table may force. -/
structure Lengths where
  recordLength : Nat
  indicatorLength : Nat
  identifierLength : Nat
  baseAddress : Nat
  lengthDataEntry : Nat
  lengthStarting : Nat

def Loaded.lengths (atoiN : List Byte → Nat) (forceIndicator forceIdentifier : Option Nat)
    (r : Loaded) : Lengths where
  recordLength := r.recordLength
  indicatorLength := forceIndicator.getD (atoiN (bytes r.buf 10 1))
  identifierLength := forceIdentifier.getD (atoiN (bytes r.buf 11 1))
  baseAddress := atoiN (bytes r.buf 12 5)
  lengthDataEntry := atoiN (bytes r.buf 20 1)
  lengthStarting := atoiN (bytes r.buf 21 1)

def Lengths.entry (m : Lengths) : Nat := 3 + m.lengthDataEntry + m.lengthStarting

def copy (m : Lengths) (buf : Nat → Byte) (i n : Nat) : Except Stop (List Byte) :=
  if n = 0 ∨ i + n ≤ m.recordLength then .ok (bytes buf i n) else .error .behind

/-- Whether the `n` bytes are digits, looked at from the last on -/
def allDigits (buf : Nat → Byte) (i : Nat) : Nat → Except Stop Bool
  | 0 => .ok true
  | n + 1 =>
    (byteAt buf (i + n)).bind fun c => if isDigit c then allDigits buf i n else .ok false

/-- The end of the directory; none where it does not end in the record. -/
def scanDirectory (m : Lengths) (buf : Nat → Byte) : Nat → Nat → Except Stop (Option Nat)
  | 0, _ => .error .fuel
  | fuel + 1, entryP =>
    (byteAt buf entryP).bind fun c =>
      if c = fieldSeparator then .ok (some entryP)
      else if m.recordLength ≤ entryP + m.entry then .ok none
      else
        (allDigits buf (entryP + 3) (m.lengthDataEntry + m.lengthStarting)).bind fun digits =>
          if digits then scanDirectory m buf fuel (entryP + m.entry) else .ok (some entryP)

/-- What an entry of the directory says: the tag, and where the data begin and end. -/
structure Entry where
  tag : List Byte
  dataLength : Nat
  start : Nat

def Entry.endOffset (e : Entry) : Nat := e.start + e.dataLength - 1

def entryAt (atoiN : List Byte → Nat) (m : Lengths) (buf : Nat → Byte) (entryP : Nat) : Entry where
  tag := bytes buf entryP 3
  dataLength := atoiN (bytes buf (entryP + 3) m.lengthDataEntry)
  start := atoiN (bytes buf (entryP + 3 + m.lengthDataEntry) m.lengthStarting) + m.baseAddress

/-- `memcmp(tag, "00", 2) == 0` -/
def Entry.control (e : Entry) : Bool := e.tag.take 2 = [48, 48]

def Entry.good (e : Entry) (m : Lengths) : Bool :=
  0 < e.dataLength && e.endOffset < m.recordLength

def textEnd (buf : Nat → Byte) (endOffset : Nat) : Nat → Nat → Except Stop Nat
  | 0, _ => .error .fuel
  | fuel + 1, i =>
    (byteAt buf i).bind fun c =>
      if c ≠ recordSeparator ∧ c ≠ identifierSeparator ∧ c ≠ fieldSeparator ∧ i < endOffset then
        textEnd buf endOffset fuel (i + 1)
      else .ok i

def subfieldNode (marcXml : Bool) (code data : List Byte) : Data1Node :=
  if marcXml then .tag (asBytes "subfield") [(asBytes "code", cString code)] [.text data]
  else .tag (cString code) [] [.text data]

/-- The bytes of a code, of which `MARCXML` has at most 8 -/
def codeLength (marcXml : Bool) (m : Lengths) : Nat :=
  if marcXml then min m.identifierLength 9 - 1 else m.identifierLength - 1

/-- The data of a field from `i` on; `i0` is where the text that has not been stored begins. -/
def subfields (marcXml : Bool) (m : Lengths) (buf : Nat → Byte) (e : Entry) :
    Nat → Nat → Nat → Except Stop (List Data1Node)
  | 0, _, _ => .error .fuel
  | fuel + 1, i, i0 =>
    (byteAt buf i).bind fun c =>
      if c ≠ recordSeparator ∧ c ≠ fieldSeparator ∧ i < e.endOffset then
        if !e.control && m.identifierLength ≠ 0 then
          (copy m buf (i + 1) (codeLength marcXml m)).bind fun code =>
            (textEnd buf e.endOffset (e.endOffset + 1) (i + m.identifierLength)).bind fun after =>
              (copy m buf (i + m.identifierLength) (after - (i + m.identifierLength))).bind
                fun data =>
                  (subfields marcXml m buf e fuel after after).map fun nodes =>
                    subfieldNode marcXml code data :: nodes
        else subfields marcXml m buf e fuel (i + 1) i0
      else if i0 < i then (copy m buf i0 (i - i0)).map fun data => [.text data]
      else .ok []

def indicatorAttributes (tag indicators : List Byte) : List (List Byte × List Byte) :=
  (asBytes "tag", cString tag) ::
    indicators.zipIdx.map fun c => (asBytes "ind" ++ decimal (c.2 + 1), cString [c.1])

def fieldNodes (marcXml : Bool) (m : Lengths) (buf : Nat → Byte) (e : Entry) :
    Except Stop (List Data1Node) :=
  if !e.control && m.indicatorLength ≠ 0 then
    (copy m buf e.start m.indicatorLength).bind fun indicators =>
      (subfields marcXml m buf e (e.endOffset + 1) (e.start + m.indicatorLength)
          (e.start + m.indicatorLength)).map fun nodes =>
        if marcXml then [.tag (asBytes "datafield") (indicatorAttributes e.tag indicators) nodes]
        else [.tag (cString indicators) [] nodes]
  else
    (subfields marcXml m buf e (e.endOffset + 1) e.start e.start).map fun nodes =>
      if marcXml then [.tag (asBytes "controlfield") [(asBytes "tag", cString e.tag)] nodes]
      else nodes

/-- The node of an entry, which is without data where its offsets are bad -/
def entryNodes (marcXml : Bool) (e : Entry) (nodes : List Data1Node) : List Data1Node :=
  if marcXml then nodes else [.tag (cString e.tag) [] nodes]

def readFields (atoiN : List Byte → Nat) (marcXml : Bool) (m : Lengths) (buf : Nat → Byte)
    (endOfDirectory : Nat) : Nat → Nat → Except Stop (List Data1Node)
  | 0, _ => .error .fuel
  | fuel + 1, entryP =>
    if entryP = endOfDirectory then .ok []
    else
      (copy m buf entryP m.entry).bind fun _ =>
        if (entryAt atoiN m buf entryP).good m then
          (fieldNodes marcXml m buf (entryAt atoiN m buf entryP)).bind fun nodes =>
            (readFields atoiN marcXml m buf endOfDirectory fuel (entryP + m.entry)).map fun rest =>
              entryNodes marcXml (entryAt atoiN m buf entryP) nodes ++ rest
        else .ok (entryNodes marcXml (entryAt atoiN m buf entryP) [])

def recordNode (marcXml : Bool) (type leader : List Byte) (nodes : List Data1Node) : Data1Node :=
  if marcXml then
    .tag (asBytes "record") [(asBytes "xmlns", asBytes "http://www.loc.gov/MARC21/slim")]
      (.tag (asBytes "leader") [] [.text leader] :: nodes)
  else .tag type [] nodes

/-- `grs_read_iso2709`, for a record that has a root; none where it returns no tree. -/
def grsReadIso2709 (atoiN : List Byte → Nat) (forceIndicator forceIdentifier : Option Nat)
    (marcXml : Bool) (type : List Byte) (garbage : Nat → Byte) (stream : List Byte) :
    Except Stop (Option Data1Node) :=
  (loadRecord atoiN garbage stream).bind fun loaded =>
    match loaded with
    | none => .ok none
    | some r =>
      (copy (r.lengths atoiN forceIndicator forceIdentifier) r.buf 0 24).bind fun leader =>
        (scanDirectory (r.lengths atoiN forceIndicator forceIdentifier) r.buf
            (r.recordLength + 1) 24).bind fun found =>
          match found with
          | none => .ok none
          | some endOfDirectory =>
            (readFields atoiN marcXml (r.lengths atoiN forceIndicator forceIdentifier) r.buf
                endOfDirectory (r.recordLength + 1) 24).map fun nodes =>
              some (recordNode marcXml type leader nodes)

end Zebra.Marc
