import Zebra.Marc.Read

/-!
# Writing MARC records

`d1_marc.c`: `nodetomarc` goes twice through the fields of a record.  The first pass adds up what
the record and its directory take, and the second writes both.
-/

namespace Zebra.Marc

/-- `data1_marctab`, with what is written to a leader -/
structure Data1Marctab where
  recordStatus : Byte
  implementationCodes : List Byte
  indicatorLength : Nat
  identifierLength : Nat
  userSystems : List Byte
  lengthDataEntry : Nat
  lengthStarting : Nat
  lengthImplementation : Nat
  futureUse : Byte
  implementationCodes_length : implementationCodes.length = 4
  userSystems_length : userSystems.length = 3

/-- The last `k` decimal digits of a number -/
@[grind =] def digits : Nat → Nat → List Byte
  | 0, _ => []
  | k + 1, n => digits k (n / 10) ++ [48 + n % 10]

/-- `%08d` -/
def eightDigits (n : Nat) : List Byte := if n < 10 ^ 8 then digits 8 n else decimal n

def memint (val len : Nat) : List Byte :=
  if len = 1 then [val + 48] else ((eightDigits val).drop (8 - len)).take len

/-- `get_data2` on a node with those behind it, where `dst` has what has been found. -/
@[grind =] def getData2 : List Data1Node → List Byte → List Byte
  | [], dst => dst
  | .text data :: rest, dst => getData2 rest (dst ++ data)
  | .tag _ _ child :: _, dst => if dst = [] then getData2 child dst else dst

/-- What `get_data2` stores of its data, of which it copies `max` bytes. -/
def stored (garbage : Nat → Byte) (max : Nat) (data : List Byte) : List Byte :=
  data.take max ++ bytes garbage 0 (data.length - max)

/-- What the passes do with a child of the record -/
inductive FieldKind where
  | skipped
  | leader
  | field (control marcXml : Bool)

def Data1Node.isText : Data1Node → Bool
  | .tag _ _ _ => false
  | .text _ => true

/-- `u.tag.tag`, which is where the data of a text are -/
def Data1Node.name : Data1Node → List Byte
  | .tag name _ _ => name
  | .text data => data

def Data1Node.attributes : Data1Node → List (List Byte × List Byte)
  | .tag _ attributes _ => attributes
  | .text _ => []

def Data1Node.child : Data1Node → List Data1Node
  | .tag _ _ child => child
  | .text _ => []

/-- The kind of a child; `mc` is whether a tag matches `mc?`. -/
def fieldKind (mc : List Byte → Bool) (field : Data1Node) : FieldKind :=
  match field.child with
  | [] => .skipped
  | subf :: _ =>
    if mc field.name then .skipped
    else if field.name = asBytes "leader" then .leader
    else if field.name = asBytes "controlfield" then .field true true
    else if field.name = asBytes "datafield" then .field false true
    else .field subf.isText false

/-- Whether `is_indicator` holds of the first child of a field that is not of `MARCXML` -/
def isIndicator (p : Data1Marctab) (child : List Data1Node) : Bool :=
  p.indicatorLength ≠ 2 || child.head?.any fun subf => !subf.isText && subf.name.length = 2

def subfieldsOf (p : Data1Marctab) (marcXml : Bool) (child : List Data1Node) : List Data1Node :=
  if !marcXml && isIndicator p child then (child.head?.map Data1Node.child).getD [] else child

def attributeValue (name : List Byte) (attributes : List (List Byte × List Byte)) :
    Option (List Byte) :=
  (attributes.reverse.find? fun xa => xa.1 = name).map Prod.snd

@[grind =] def subfieldLengths (p : Data1Marctab) (control marcXml : Bool) : List Data1Node → Nat
  | [] => 0
  | subf :: rest =>
    (if control then (getData2 (subf :: rest) []).length
      else if marcXml && subf.isText then 0
      else p.identifierLength + (getData2 (subf :: rest) []).length) +
    subfieldLengths p control marcXml rest

/-- The length of the record and its base address, from where they are -/
def firstPass (p : Data1Marctab) (mc : List Byte → Bool) :
    List Data1Node → Nat × Nat → Nat × Nat
  | [], lengths => lengths
  | field :: fields, lengths =>
    match fieldKind mc field with
    | .field control marcXml =>
      firstPass p mc fields
        (lengths.1 + (4 + p.lengthDataEntry + p.lengthStarting + p.lengthImplementation) +
            (if control then 0 else p.indicatorLength) +
            subfieldLengths p control marcXml (subfieldsOf p marcXml field.child),
          lengths.2 + (3 + p.lengthDataEntry + p.lengthStarting + p.lengthImplementation))
    | .skipped => firstPass p mc fields lengths
    | .leader => firstPass p mc fields lengths

/-- The leader, in which the data of leader fields replace what has been there -/
def leaderPass (mc : List Byte → Bool) : List Data1Node → List Byte → List Byte
  | [], leader => leader
  | field :: fields, leader =>
    match fieldKind mc field with
    | .leader =>
      leaderPass mc fields
        ((getData2 field.child []).take 24 ++ leader.drop
          ((getData2 field.child []).take 24).length)
    | .skipped => leaderPass mc fields leader
    | .field _ _ => leaderPass mc fields leader

def indicatorData (p : Data1Marctab) (marcXml : Bool) (field : Data1Node) : List Byte :=
  if !marcXml && isIndicator p field.child then
    let tag := (field.child.head?.map Data1Node.name).getD []
    tag.take 5 ++ List.replicate (6 - (tag.take 5).length) 0
  else if marcXml then
    let ind name := ((attributeValue (asBytes name) field.attributes).map fun value =>
      (value ++ [0]).headD 0).getD 32
    [ind "ind1", ind "ind2", ind "ind3", 32, 32, 0]
  else [32, 32, 32, 32, 32, 0]

def identifierOf (marcXml : Bool) (subf : Data1Node) : List Byte :=
  if marcXml then (attributeValue (asBytes "code") subf.attributes).getD (asBytes "a")
  else if subf.isText then asBytes "a"
  else subf.name

@[grind =] def subfieldData (garbage : Nat → Byte) (p : Data1Marctab) (control marcXml : Bool) :
    List Data1Node → List Byte
  | [] => []
  | subf :: rest =>
    (if control then stored garbage 100000 (getData2 (subf :: rest) [])
      else if marcXml && subf.isText then []
      else identifierSeparator ::
        ((identifierOf marcXml subf ++ [0]).take (p.identifierLength - 1) ++
          stored garbage 100000 (getData2 (subf :: rest) []))) ++
    subfieldData garbage p control marcXml rest

def fieldData (garbage : Nat → Byte) (p : Data1Marctab) (control marcXml : Bool)
    (field : Data1Node) : List Byte :=
  (if control then [] else (indicatorData p marcXml field).take p.indicatorLength) ++
    (subfieldData garbage p control marcXml (subfieldsOf p marcXml field.child) ++ [fieldSeparator])

def fieldTag (marcXml : Bool) (field : Data1Node) : List Byte :=
  let tag := if marcXml then attributeValue (asBytes "tag") field.attributes else some field.name
  if tag.map List.length = some 3 then tag.getD [] else asBytes "000"

/-- The directory and the data, for fields whose data begin at an offset -/
def secondPass (garbage : Nat → Byte) (p : Data1Marctab) (mc : List Byte → Bool) :
    List Data1Node → Nat → List Byte × List Byte
  | [], _ => ([], [])
  | field :: fields, offset =>
    match fieldKind mc field with
    | .field control marcXml =>
      let data := fieldData garbage p control marcXml field
      let rest := secondPass garbage p mc fields (offset + data.length)
      (fieldTag marcXml field ++ memint data.length p.lengthDataEntry ++
          memint offset p.lengthStarting ++ bytes garbage 0 p.lengthImplementation ++ rest.1,
        data ++ rest.2)
    | .skipped => secondPass garbage p mc fields offset
    | .leader => secondPass garbage p mc fields offset

/-- The leader of a table, with nothing yet in the places of the length and the base address -/
def tableLeader (garbage : Nat → Byte) (p : Data1Marctab) : List Byte :=
  bytes garbage 0 5 ++ (p.recordStatus :: p.implementationCodes) ++
    (memint p.indicatorLength 1 ++ memint p.identifierLength 1) ++ bytes garbage 0 5 ++
    p.userSystems ++ (memint p.lengthDataEntry 1 ++ memint p.lengthStarting 1 ++
      memint p.lengthImplementation 1) ++ [p.futureUse]

def replaceAt (leader : List Byte) (i : Nat) (with' : List Byte) : List Byte :=
  leader.take i ++ with' ++ leader.drop (i + with'.length)

/-- `nodetomarc` on the children of a record; none where an assertion fails. -/
def nodetomarc (garbage : Nat → Byte) (p : Data1Marctab) (mc : List Byte → Bool)
    (fields : List Data1Node) : Option (List Byte) :=
  let lengths := firstPass p mc fields (26, 25)
  let leader := replaceAt (replaceAt (leaderPass mc fields (tableLeader garbage p)) 12
    (memint lengths.2 5)) 0 (memint lengths.1 5)
  let written := secondPass garbage p mc fields 0
  if 24 + written.1.length + 1 = lengths.2 ∧ lengths.2 + written.2.length + 1 = lengths.1 then
    some (leader ++ written.1 ++ [fieldSeparator] ++ written.2 ++ [recordSeparator])
  else none

end Zebra.Marc
