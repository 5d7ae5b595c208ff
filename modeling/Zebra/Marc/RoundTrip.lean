import Zebra.Marc.Bounds
import Zebra.Marc.Write

/-!
# Records written and read again

A record of `MARCXML` is written with the bytes of its fields one behind another, and read by the
offsets in its directory.  The value of a control field is written once more from each further data
node on, since the loop over the nodes goes on with nodes whose data have been taken.
-/

namespace Zebra.Marc

open List

/-- A field, whose values are held in data nodes -/
inductive MarcField where
  | control (tag : List Byte) (pieces : List (List Byte))
  | data (tag : List Byte) (ind1 ind2 : Byte) (subfields : List (Byte × List (List Byte)))

def subfieldTree (s : Byte × List (List Byte)) : Data1Node :=
  .tag (asBytes "subfield") [(asBytes "code", [s.1])] (s.2.map .text)

namespace MarcField

def node : MarcField → Data1Node
  | control tag pieces => .tag (asBytes "controlfield") [(asBytes "tag", tag)] (pieces.map .text)
  | data tag ind1 ind2 subfields =>
    .tag (asBytes "datafield")
      [(asBytes "tag", tag), (asBytes "ind1", [ind1]), (asBytes "ind2", [ind2])]
      (subfields.map subfieldTree)

def joined : MarcField → MarcField
  | control tag pieces => control tag [pieces.flatten]
  | data tag ind1 ind2 subfields =>
    data tag ind1 ind2 (subfields.map fun s => (s.1, [s.2.flatten]))

end MarcField

@[grind =] def repeatedValue : List (List Byte) → List Byte
  | [] => []
  | piece :: pieces => (piece :: pieces).flatten ++ repeatedValue pieces

namespace MarcField

def written : MarcField → MarcField
  | control tag pieces => control tag [repeatedValue pieces]
  | data tag ind1 ind2 subfields =>
    data tag ind1 ind2 (subfields.map fun s => (s.1, [s.2.flatten]))

def tag : MarcField → List Byte
  | control tag _ => tag
  | data tag _ _ _ => tag

def subfieldBytes (s : Byte × List (List Byte)) : List Byte :=
  identifierSeparator :: s.1 :: s.2.flatten

def bytes : MarcField → List Byte
  | control _ pieces => repeatedValue pieces ++ [fieldSeparator]
  | data _ ind1 ind2 subfields =>
    ind1 :: ind2 :: (subfields.flatMap subfieldBytes ++ [fieldSeparator])

def plain (c : Byte) : Prop := c ≠ recordSeparator ∧ c ≠ fieldSeparator ∧ c ≠ identifierSeparator

/-- A field whose tag, indicators and codes are strings, and whose values are not empty and have no
separators -/
def WellFormed : MarcField → Prop
  | control tag pieces =>
    tag.length = 3 ∧ tag.take 2 = [48, 48] ∧ 0 ∉ tag ∧ pieces.flatten ≠ [] ∧
      ∀ c ∈ pieces.flatten, plain c
  | data tag ind1 ind2 subfields =>
    tag.length = 3 ∧ tag.take 2 ≠ [48, 48] ∧ 0 ∉ tag ∧ tag.head? ≠ some fieldSeparator ∧
      ind1 ≠ 0 ∧ ind2 ≠ 0 ∧ subfields ≠ [] ∧
      ∀ s ∈ subfields, s.1 ≠ 0 ∧ s.2.flatten ≠ [] ∧ ∀ c ∈ s.2.flatten, plain c

/-- All of a control field's value is in its first data node. -/
def SingleNode : MarcField → Prop
  | control _ pieces => pieces.tail.flatten = []
  | data _ _ _ _ => True

end MarcField

theorem digits_length (k n : Nat) : (digits k n).length = k := by
  induction k generalizing n with
  | zero => rfl
  | succ k ih => rw [digits, length_append, ih, length_singleton]

theorem digits_drop (j k n : Nat) : (digits (j + k) n).drop j = digits k n := by
  induction k generalizing n with
  | zero =>
    rw [Nat.add_zero, digits]
    exact drop_eq_nil_of_le (Nat.le_of_eq (digits_length j n))
  | succ k ih =>
    rw [← Nat.add_assoc, digits, digits, drop_append_of_le_length, ih]
    rw [digits_length]
    exact Nat.le_add_right j k

theorem isDigit_of_mem_digits {k n : Nat} {c : Byte} (mem : c ∈ digits k n) : isDigit c = true := by
  induction k generalizing n with
  | zero => cases mem
  | succ k ih =>
    rw [digits, mem_append, mem_singleton] at mem
    rcases mem with mem | rfl
    · exact ih mem
    · have small : n % 10 < 10 := Nat.mod_lt n (by decide)
      have low : 48 ≤ 48 + n % 10 := Nat.le_add_right _ _
      have high : 48 + n % 10 ≤ 57 := Nat.add_le_add_left (Nat.le_of_lt_succ small) 48
      simp only [isDigit, Bool.and_eq_true, decide_eq_true_eq]
      exact ⟨low, high⟩

theorem memint_eq {val len : Nat} (small : val < 10 ^ 8) (short : len ≤ 8) (some : len ≠ 1) :
    memint val len = digits len val := by
  have width : digits 8 val = digits (8 - len + len) val := by rw [Nat.sub_add_cancel short]
  rw [memint, if_neg some, eightDigits, if_pos small, width, digits_drop,
    take_of_length_le (Nat.le_of_eq (digits_length len val))]

/-- What the code relies on of `atoi_n`: it reads a number of fixed width. -/
def ReadsDigits (atoiN : List Byte → Nat) : Prop :=
  ∀ k n, n < 10 ^ k → atoiN (digits k n) = n

theorem ReadsDigits.single {atoiN : List Byte → Nat} (reads : ReadsDigits atoiN) {n : Nat}
    (small : n < 10) : atoiN [48 + n] = n := by
  have own := reads 1 n small
  rwa [digits, digits, nil_append, Nat.mod_eq_of_lt small] at own

theorem getData2_texts (pieces : List (List Byte)) (dst : List Byte) :
    getData2 (pieces.map .text) dst = dst ++ pieces.flatten := by
  induction pieces generalizing dst with
  | nil => rw [map_nil, getData2, flatten_nil, append_nil]
  | cons piece pieces ih => rw [map_cons, getData2, ih, flatten_cons, append_assoc]

theorem getData2_subfield (s : Byte × List (List Byte)) (rest : List Data1Node) :
    getData2 (subfieldTree s :: rest) [] = s.2.flatten := by
  rw [subfieldTree, getData2, if_pos rfl, getData2_texts, nil_append]

theorem stored_eq (garbage : Nat → Byte) {max : Nat} {data : List Byte}
    (short : data.length ≤ max) :
    stored garbage max data = data := by
  rw [stored, take_of_length_le short, Nat.sub_eq_zero_of_le short]
  exact append_nil data

section

variable {p : Data1Marctab}

theorem subfieldLengths_control (pieces : List (List Byte)) (marcXml : Bool) :
    subfieldLengths p true marcXml (pieces.map .text) = (repeatedValue pieces).length := by
  induction pieces with
  | nil => rfl
  | cons piece pieces ih =>
    rw [map_cons, subfieldLengths, if_pos rfl, ih, ← map_cons, getData2_texts,
      nil_append, repeatedValue, length_append]

theorem subfieldData_control (garbage : Nat → Byte) (pieces : List (List Byte)) (marcXml : Bool)
    (short : (repeatedValue pieces).length ≤ 100000) :
    subfieldData garbage p true marcXml (pieces.map .text) = repeatedValue pieces := by
  induction pieces with
  | nil => rfl
  | cons piece pieces ih =>
    rw [repeatedValue, length_append] at short
    rw [map_cons, subfieldData, if_pos rfl, ih (by omega), ← map_cons, getData2_texts,
      nil_append, stored_eq garbage (by omega), repeatedValue]

theorem subfieldLengths_data (two : p.identifierLength = 2) (ss : List (Byte × List (List Byte))) :
    subfieldLengths p false true (ss.map subfieldTree) =
      (ss.flatMap MarcField.subfieldBytes).length := by
  induction ss with
  | nil => rfl
  | cons s ss ih =>
    rw [map_cons, subfieldLengths, if_neg Bool.false_ne_true, if_neg, ih, getData2_subfield,
      flatMap_cons, length_append, MarcField.subfieldBytes, two]
    · simp only [length_cons]
      omega
    · rw [subfieldTree, Data1Node.isText]
      exact Bool.false_ne_true

theorem subfieldData_data (garbage : Nat → Byte) (two : p.identifierLength = 2)
    (ss : List (Byte × List (List Byte)))
    (short : (ss.flatMap MarcField.subfieldBytes).length ≤ 100000) :
    subfieldData garbage p false true (ss.map subfieldTree) =
      ss.flatMap MarcField.subfieldBytes := by
  induction ss with
  | nil => rfl
  | cons s ss ih =>
    rw [flatMap_cons, length_append, MarcField.subfieldBytes, length_cons,
      length_cons] at short
    rw [map_cons, subfieldData, if_neg Bool.false_ne_true, if_neg, ih (by omega),
      getData2_subfield, stored_eq garbage (by omega), flatMap_cons, two]
    · rfl
    · rw [subfieldTree, Data1Node.isText]
      exact Bool.false_ne_true

end

/-- A table with two indicators and codes of one character, whose numbers are wide enough -/
structure Standard (p : Data1Marctab) : Prop where
  indicators : p.indicatorLength = 2
  identifiers : p.identifierLength = 2
  dataEntry : 4 ≤ p.lengthDataEntry ∧ p.lengthDataEntry ≤ 8
  starting : 5 ≤ p.lengthStarting ∧ p.lengthStarting ≤ 8
  implementation : p.lengthImplementation = 0

open MarcField (node subfieldBytes)

open Data1Node (child name)

/-- What the code relies on of the match with `mc?`: these tags do not begin with `mc`. -/
structure Unmatched (mc : List Byte → Bool) : Prop where
  leader : mc (asBytes "leader") = false
  control : mc (asBytes "controlfield") = false
  data : mc (asBytes "datafield") = false

def MarcField.isControl : MarcField → Bool
  | control _ _ => true
  | data _ _ _ _ => false

theorem map_ne_nil_of_flatten {pieces : List (List Byte)} (some : pieces.flatten ≠ []) :
    ∃ piece rest, pieces = piece :: rest := by
  cases pieces with
  | nil => exact absurd rfl some
  | cons piece rest => exact ⟨piece, rest, rfl⟩

variable {mc : List Byte → Bool}

theorem fieldKind_node (unmatched : Unmatched mc) {f : MarcField}
    (wf : f.WellFormed) : fieldKind mc f.node = .field f.isControl true := by
  cases f with
  | control tag pieces =>
    obtain ⟨-, -, -, some, -⟩ := wf
    obtain ⟨piece, rest, rfl⟩ := map_ne_nil_of_flatten some
    simp only [fieldKind, node, child, name, map_cons,
      unmatched.control]
    rfl
  | data tag ind1 ind2 subfields =>
    obtain ⟨-, -, -, -, -, -, some, -⟩ := wf
    cases subfields with
    | nil => exact absurd rfl some
    | cons s ss =>
      simp only [fieldKind, node, child, name, map_cons,
        unmatched.data]
      rfl

/-- The bytes of the entries of fields whose data begin at an offset -/
@[grind =] def entries (p : Data1Marctab) : List MarcField → Nat → List Byte
  | [], _ => []
  | f :: fields, offset =>
    f.tag ++ (digits p.lengthDataEntry f.bytes.length ++
      (digits p.lengthStarting offset ++ entries p fields (offset + f.bytes.length)))

theorem subfieldsOf_node (p : Data1Marctab) (child : List Data1Node) :
    subfieldsOf p true child = child :=
  rfl

variable {p : Data1Marctab}

theorem fieldLength_node (standard : Standard p) (f : MarcField) :
    (if f.isControl then 0 else p.indicatorLength) +
      subfieldLengths p f.isControl true (subfieldsOf p true f.node.child) + 1 =
        f.bytes.length := by
  rw [subfieldsOf_node]
  cases f with
  | control tag pieces =>
    rw [MarcField.isControl, node, child, if_pos rfl, subfieldLengths_control,
      MarcField.bytes, length_append, length_singleton, Nat.zero_add]
  | data tag ind1 ind2 subfields =>
    rw [MarcField.isControl, node, child, if_neg Bool.false_ne_true,
      subfieldLengths_data standard.identifiers, MarcField.bytes, length_cons,
      length_cons, length_append, length_singleton, standard.indicators]
    omega

theorem firstPass_nodes (standard : Standard p)
    (unmatched : Unmatched mc) (fields : List MarcField) (wf : ∀ f ∈ fields, f.WellFormed)
    (lengths : Nat × Nat) :
    firstPass p mc (fields.map node) lengths =
      (lengths.1 + fields.length * (3 + p.lengthDataEntry + p.lengthStarting) +
          (fields.flatMap MarcField.bytes).length,
        lengths.2 + fields.length * (3 + p.lengthDataEntry + p.lengthStarting)) := by
  induction fields generalizing lengths with
  | nil => simp [firstPass]
  | cons f fields ih =>
    have own := fieldLength_node standard f
    rw [map_cons, firstPass, fieldKind_node unmatched (wf f mem_cons_self)]
    dsimp only
    rw [ih fun g mem => wf g (mem_cons_of_mem _ mem), flatMap_cons, length_append,
      length_cons, Nat.succ_mul, standard.implementation]
    refine Prod.ext ?_ ?_
    · dsimp only
      omega
    · dsimp only
      omega

theorem attributeValue_tag (tag : List Byte) (ind1 ind2 : Byte) :
    attributeValue (asBytes "tag")
      [(asBytes "tag", tag), (asBytes "ind1", [ind1]), (asBytes "ind2", [ind2])] = some tag :=
  rfl

theorem fieldTag_node {f : MarcField} (wf : f.WellFormed) : fieldTag true f.node = f.tag := by
  cases f with
  | control tag pieces =>
    have length : tag.length = 3 := wf.1
    have found : attributeValue (asBytes "tag") [(asBytes "tag", tag)] = some tag := rfl
    simp only [fieldTag, node, Data1Node.attributes, if_true, found, Option.map_some,
      length, Option.getD_some, MarcField.tag]
  | data tag ind1 ind2 subfields =>
    have length : tag.length = 3 := wf.1
    simp only [fieldTag, node, Data1Node.attributes, if_true, attributeValue_tag,
      Option.map_some, length, Option.getD_some, MarcField.tag]

theorem fieldData_node (garbage : Nat → Byte) (standard : Standard p)
    (f : MarcField) (short : f.bytes.length ≤ 100000) :
    fieldData garbage p f.isControl true f.node = f.bytes := by
  rw [fieldData, subfieldsOf_node]
  cases f with
  | control tag pieces =>
    rw [MarcField.bytes, length_append] at short
    rw [MarcField.isControl, node, child, if_pos rfl,
      subfieldData_control garbage pieces true (by omega), MarcField.bytes]
    rfl
  | data tag ind1 ind2 subfields =>
    rw [MarcField.bytes, length_cons, length_cons, length_append] at short
    rw [MarcField.isControl, node, child, if_neg Bool.false_ne_true,
      subfieldData_data garbage standard.identifiers subfields (by omega), standard.indicators,
      MarcField.bytes]
    rfl

theorem secondPass_nodes (garbage : Nat → Byte) (standard : Standard p) (unmatched : Unmatched mc)
    (fields : List MarcField)
    (wf : ∀ f ∈ fields, f.WellFormed) (offset : Nat)
    (short : offset + (fields.flatMap MarcField.bytes).length ≤ 100000) :
    secondPass garbage p mc (fields.map node) offset =
      (entries p fields offset, fields.flatMap MarcField.bytes) := by
  have wide : 100000 < 10 ^ 8 := by decide
  induction fields generalizing offset with
  | nil => rfl
  | cons f fields ih =>
    rw [flatMap_cons, length_append] at short
    have own := wf f mem_cons_self
    obtain ⟨entryLow, entryHigh⟩ := standard.dataEntry
    obtain ⟨startLow, startHigh⟩ := standard.starting
    rw [map_cons, secondPass, fieldKind_node unmatched own]
    dsimp only
    rw [fieldData_node garbage standard f (by omega),
      ih (fun g mem => wf g (.tail _ mem)) _ (by omega), fieldTag_node own,
      memint_eq (by omega) entryHigh (by omega), memint_eq (by omega) startHigh (by omega),
      standard.implementation, entries, flatMap_cons]
    refine Prod.ext ?_ rfl
    simp only [append_assoc]
    rfl

theorem entries_length (fields : List MarcField) (wf : ∀ f ∈ fields, f.WellFormed) (offset : Nat) :
    (entries p fields offset).length =
      fields.length * (3 + p.lengthDataEntry + p.lengthStarting) := by
  induction fields generalizing offset with
  | nil => simp [entries]
  | cons f fields ih =>
    have length : f.tag.length = 3 := by
      have own := wf f mem_cons_self
      cases f with
      | control tag pieces => exact own.1
      | data tag ind1 ind2 subfields => exact own.1
    rw [entries, length_append, length_append, length_append, length,
      digits_length, digits_length, ih fun g mem => wf g (.tail _ mem),
      length_cons, Nat.succ_mul]
    omega

/-- A record, with the data nodes of its leader -/
structure MarcRecord where
  leader : List (List Byte)
  fields : List MarcField

def MarcRecord.nodes (r : MarcRecord) : List Data1Node :=
  .tag (asBytes "leader") [] (r.leader.map .text) :: r.fields.map MarcField.node

/-- The parts of a leader, around those which a table determines -/
structure LeaderParts where
  length : List Byte
  status : List Byte
  base : List Byte
  user : List Byte
  rest : List Byte
  length_length : length.length = 5
  status_length : status.length = 5
  base_length : base.length = 5
  user_length : user.length = 3
  rest_length : rest.length = 2

def LeaderParts.bytes (l : LeaderParts) (p : Data1Marctab) : List Byte :=
  l.length ++ (l.status ++ ([50, 50] ++ (l.base ++ (l.user ++
    ([48 + p.lengthDataEntry, 48 + p.lengthStarting] ++ l.rest)))))

theorem LeaderParts.bytes_length (l : LeaderParts) (p : Data1Marctab) :
    (l.bytes p).length = 24 := by
  simp only [LeaderParts.bytes, length_append, length_cons, length_nil,
    l.length_length, l.status_length, l.base_length, l.user_length, l.rest_length]

/-- A leader with the length of the record and its base address -/
def LeaderParts.fill (l : LeaderParts) (length base : Nat) : LeaderParts where
  length := digits 5 length
  status := l.status
  base := digits 5 base
  user := l.user
  rest := l.rest
  length_length := digits_length 5 length
  status_length := l.status_length
  base_length := digits_length 5 base
  user_length := l.user_length
  rest_length := l.rest_length

theorem replaceAt_mid (before old behind new : List Byte) (same : old.length = new.length) :
    replaceAt (before ++ (old ++ behind)) before.length new = before ++ (new ++ behind) := by
  rw [replaceAt, take_left, ← same, ← length_append, ← append_assoc before old,
    drop_left, append_assoc]

theorem leader_filled (l : LeaderParts) (p : Data1Marctab) (length base : Nat) :
    replaceAt (replaceAt (l.bytes p) 12 (digits 5 base)) 0 (digits 5 length) =
      (l.fill length base).bytes p := by
  have twelve : (l.length ++ (l.status ++ [50, 50])).length = 12 := by
    simp only [length_append, length_cons, length_nil, l.length_length,
      l.status_length]
  have front : l.bytes p = (l.length ++ (l.status ++ [50, 50])) ++ (l.base ++ (l.user ++
      ([48 + p.lengthDataEntry, 48 + p.lengthStarting] ++ l.rest))) := by
    simp only [LeaderParts.bytes, append_assoc]
  rw [front, ← twelve, replaceAt_mid _ _ _ _ (l.base_length.trans (digits_length 5 base).symm)]
  have whole := replaceAt_mid [] l.length (l.status ++ ([50, 50] ++ (digits 5 base ++ (l.user ++
    ([48 + p.lengthDataEntry, 48 + p.lengthStarting] ++ l.rest))))) (digits 5 length)
    (l.length_length.trans (digits_length 5 length).symm)
  simp only [append_assoc]
  exact whole

theorem tableLeader_length (garbage : Nat → Byte) (p : Data1Marctab) :
    (tableLeader garbage p).length = 24 := by
  simp only [tableLeader, memint, bytes, if_true, length_append, length_cons,
    length_nil, length_map, length_range, p.implementationCodes_length,
    p.userSystems_length]

theorem fieldKind_leader (unmatched : Unmatched mc)
    {pieces : List (List Byte)} (whole : pieces.flatten.length = 24) :
    fieldKind mc (.tag (asBytes "leader") [] (pieces.map .text)) = .leader := by
  cases pieces with
  | nil => cases whole
  | cons piece rest =>
    simp only [fieldKind, child, name, map_cons, unmatched.leader]
    rfl

theorem leaderPass_nodes (unmatched : Unmatched mc) (r : MarcRecord)
    (wf : ∀ f ∈ r.fields, f.WellFormed) {leader : List Byte} (length : leader.length = 24)
    (whole : r.leader.flatten.length = 24) : leaderPass mc r.nodes leader = r.leader.flatten := by
  have others (fields : List MarcField) (wf : ∀ f ∈ fields, f.WellFormed) (leader : List Byte) :
      leaderPass mc (fields.map node) leader = leader := by
    induction fields with
    | nil => rfl
    | cons f fields ih =>
      rw [map_cons, leaderPass, fieldKind_node unmatched (wf f mem_cons_self)]
      exact ih fun g mem => wf g (.tail _ mem)
  have kind := fieldKind_leader unmatched whole
  rw [MarcRecord.nodes, leaderPass, kind]
  dsimp only
  rw [others r.fields wf, child, getData2_texts, nil_append,
    take_of_length_le (Nat.le_of_eq whole), whole, drop_eq_nil_of_le (Nat.le_of_eq length),
    append_nil]

def MarcRecord.base (r : MarcRecord) (p : Data1Marctab) : Nat :=
  25 + r.fields.length * (3 + p.lengthDataEntry + p.lengthStarting)

def MarcRecord.length (r : MarcRecord) (p : Data1Marctab) : Nat :=
  r.base p + (r.fields.flatMap MarcField.bytes).length + 1

def MarcRecord.bytes (r : MarcRecord) (p : Data1Marctab) (l : LeaderParts) : List Byte :=
  (l.fill (r.length p) (r.base p)).bytes p ++ (entries p r.fields 0 ++ (fieldSeparator ::
    (r.fields.flatMap MarcField.bytes ++ [recordSeparator])))

/-- A record that can be written: its leader agrees with the table, and its fields are not too
long. -/
structure Writable (p : Data1Marctab) (r : MarcRecord) (l : LeaderParts) : Prop where
  leader : r.leader.flatten = l.bytes p
  fields : ∀ f ∈ r.fields, f.WellFormed
  short : ∀ f ∈ r.fields, f.bytes.length < 10000
  total : r.length p < 100000

theorem nodetomarc_bytes (garbage : Nat → Byte) {p : Data1Marctab} (standard : Standard p)
    {mc : List Byte → Bool} (unmatched : Unmatched mc) {r : MarcRecord} {l : LeaderParts}
    (writable : Writable p r l) : nodetomarc garbage p mc r.nodes = some (r.bytes p l) := by
  have base : r.base p = 25 + r.fields.length * (3 + p.lengthDataEntry + p.lengthStarting) := rfl
  have length : r.length p = r.base p + (r.fields.flatMap MarcField.bytes).length + 1 := rfl
  have total := writable.total
  have wide : 100000 < 10 ^ 8 := by decide
  have whole : r.leader.flatten.length = 24 := by
    rw [writable.leader]
    exact l.bytes_length p
  have kind := fieldKind_leader unmatched whole
  have first : firstPass p mc r.nodes (26, 25) = (r.length p, r.base p) := by
    rw [MarcRecord.nodes, firstPass, kind]
    dsimp only
    rw [firstPass_nodes standard unmatched r.fields writable.fields]
    refine Prod.ext ?_ rfl
    dsimp only
    omega
  have second : secondPass garbage p mc r.nodes 0 =
      (entries p r.fields 0, r.fields.flatMap MarcField.bytes) := by
    rw [MarcRecord.nodes, secondPass, kind]
    exact secondPass_nodes garbage standard unmatched r.fields writable.fields 0 (by omega)
  rw [nodetomarc, first, second,
    leaderPass_nodes unmatched r writable.fields (tableLeader_length garbage p) whole,
    if_pos, writable.leader, memint_eq (by dsimp only; omega) (by decide) (by decide),
    memint_eq (by dsimp only; omega) (by decide) (by decide), leader_filled, MarcRecord.bytes]
  · simp only [append_assoc, cons_append, nil_append]
  · refine ⟨?_, ?_⟩
    · rw [entries_length r.fields writable.fields]
      dsimp only
      omega
    · dsimp only
      omega

def Holds (buf : Nat → Byte) : Nat → List Byte → Prop
  | _, [] => True
  | i, c :: rest => buf i = c ∧ Holds buf (i + 1) rest

variable {buf : Nat → Byte}

theorem holds_append {i : Nat} {front rest : List Byte} :
    Holds buf i (front ++ rest) ↔ Holds buf i front ∧ Holds buf (i + front.length) rest := by
  induction front generalizing i with
  | nil => simp [Holds]
  | cons c front ih =>
    rw [cons_append, Holds, Holds, ih, length_cons, and_assoc,
      show i + 1 + front.length = i + (front.length + 1) by omega]

theorem holds_of_get {i : Nat} {s : List Byte}
    (all : ∀ j c, s[j]? = some c → buf (i + j) = c) : Holds buf i s := by
  induction s generalizing i with
  | nil => trivial
  | cons c s ih =>
    refine ⟨all 0 c rfl, ih fun j d at' => ?_⟩
    rw [Nat.add_assoc, Nat.add_comm 1 j]
    exact all (j + 1) d at'

theorem bytes_of_holds {i : Nat} {s : List Byte} (holds : Holds buf i s) :
    bytes buf i s.length = s := by
  induction s generalizing i with
  | nil => rfl
  | cons c s ih =>
    obtain ⟨here, rest⟩ := holds
    have later : bytes buf (i + 1) s.length =
        (List.range s.length).map ((fun j => buf (i + j)) ∘ Nat.succ) := by
      unfold bytes
      refine map_congr_left fun j _ => ?_
      exact congrArg buf (by rw [Nat.succ_eq_add_one]; omega)
    have step : bytes buf i (c :: s).length = buf i :: bytes buf (i + 1) s.length := by
      rw [later]
      unfold bytes
      rw [length_cons, range_succ_eq_map, map_cons, map_map, Nat.add_zero]
    rw [step, here, ih rest]

theorem mem_of_holds {i x : Nat} {s : List Byte} (holds : Holds buf i s)
    (le : i ≤ x) (less : x < i + s.length) : buf x ∈ s := by
  induction s generalizing i with
  | nil => exact absurd less (Nat.not_lt_of_le le)
  | cons c s ih =>
    obtain ⟨here, rest⟩ := holds
    rcases Nat.eq_or_lt_of_le le with rfl | later
    · rw [here]
      exact .head _
    · rw [length_cons] at less
      exact .tail _ (ih rest later (by omega))

section

variable {buf : Nat → Byte} {m : Lengths} {e : Entry}

/-- A text without separators is read to the end of the field. -/
theorem subfields_text (plain : e.control = true) (inRecord : e.endOffset < m.recordLength)
    (small : m.recordLength < bufSize) (fuel i i0 : Nat) (le : i ≤ e.endOffset)
    (enough : e.endOffset < i + fuel)
      (text : ∀ x, i ≤ x → x < e.endOffset → MarcField.plain (buf x))
    (some : i0 < e.endOffset) :
    subfields true m buf e fuel i i0 = .ok [.text (bytes buf i0 (e.endOffset - i0))] := by
  induction fuel generalizing i with
  | zero => omega
  | succ fuel ih =>
    rw [subfields, byteAt_ok (by omega)]
    simp only [Except.bind]
    rcases Nat.eq_or_lt_of_le le with rfl | less
    · rw [if_neg fun more => Nat.lt_irrefl _ more.2.2, if_pos some, copy_ok (.inr (by omega))]
      rfl
    · obtain ⟨noRecord, noField, -⟩ := text i le_rfl less
      rw [if_pos ⟨noRecord, noField, less⟩, if_neg (by rw [plain]; exact Bool.false_ne_true)]
      exact ih (i + 1) less (by omega) fun x from' to' => text x (Nat.le_of_succ_le from') to'

/-- The subfields of a data field are read with their codes and values. -/
theorem subfields_read (data : e.control = false) (two : m.identifierLength = 2)
    (inRecord : e.endOffset < m.recordLength) (small : m.recordLength < bufSize)
    (ss : List (Byte × List (List Byte)))
    (wf : ∀ s ∈ ss, s.1 ≠ 0 ∧ s.2.flatten ≠ [] ∧ ∀ c ∈ s.2.flatten, MarcField.plain c)
    (fuel i : Nat) (holds : Holds buf i (ss.flatMap subfieldBytes ++ [fieldSeparator]))
    (ends : i + (ss.flatMap subfieldBytes).length = e.endOffset)
    (enough : e.endOffset < i + fuel) :
    subfields true m buf e fuel i i =
      .ok (ss.map fun s => subfieldTree (s.1, [s.2.flatten])) := by
  have code : codeLength true m = 1 := by
    rw [codeLength, two]
    rfl
  induction ss generalizing fuel i with
  | nil =>
    cases fuel with
    | zero =>
      rw [flatMap_nil, length_nil] at ends
      omega
    | succ fuel =>
      rw [flatMap_nil, length_nil, Nat.add_zero] at ends
      rw [subfields, byteAt_ok (by omega)]
      simp only [Except.bind]
      rw [if_neg fun more => Nat.lt_irrefl _ (ends ▸ more.2.2), if_neg (Nat.lt_irrefl i)]
      rfl
  | cons s ss ih =>
    obtain ⟨own, some, plain⟩ := wf s mem_cons_self
    rw [flatMap_cons, append_assoc, subfieldBytes, cons_append,
      cons_append] at holds
    obtain ⟨separator, codeAt, rest⟩ := holds
    obtain ⟨value, rest⟩ := holds_append.mp rest
    rw [flatMap_cons, subfieldBytes, length_append, length_cons,
      length_cons] at ends
    cases fuel with
    | zero => omega
    | succ fuel =>
      rw [subfields, byteAt_ok (by omega)]
      simp only [Except.bind]
      rw [if_pos ⟨by rw [separator]; decide, by rw [separator]; decide, by omega⟩,
        if_pos (by rw [data, two]; rfl), code, copy_ok (.inr (by omega)), two]
      simp only
      -- the text ends where its bytes do, at the next identifier or at the end of the field
      have text : TextEnd buf e.endOffset (i + 2) (i + 2 + s.2.flatten.length) := by
        refine ⟨Nat.le_add_right _ _, fun x from' to' => ?_, fun less => ?_⟩
        · obtain ⟨noRecord, noField, noIdentifier⟩ := plain _ (mem_of_holds value from' to')
          exact ⟨by omega, noRecord, noIdentifier, noField⟩
        · cases ss with
          | nil =>
            rw [flatMap_nil, length_nil] at ends
            omega
          | cons next ss => exact .inr (.inl rest.1)
      obtain ⟨after, found, text'⟩ := @textEnd_ok buf e.endOffset (by omega)
        (e.endOffset + 1) (i + 2) (by omega) (by omega) (Nat.succ_pos _)
      obtain rfl := text.unique text'
      rw [found]
      simp only
      rw [Nat.add_sub_cancel_left, copy_ok (.inr (by omega)), bytes_of_holds value]
      simp only
      rw [ih (fun t mem => wf t (mem_cons_of_mem _ mem)) fuel (i + 2 + s.2.flatten.length)
        rest (by omega) (by omega)]
      have codeByte : bytes buf (i + 1) 1 = [s.1] := by
        rw [bytes, range_one, map_cons, Nat.add_zero, codeAt]
        rfl
      have string : cString [s.1] = [s.1] := by simp [cString, own]
      rw [codeByte, subfieldNode, if_pos rfl, string]
      rfl

theorem mem_repeatedValue {pieces : List (List Byte)} {c : Byte} (mem : c ∈ repeatedValue pieces) :
    c ∈ pieces.flatten := by
  induction pieces with
  | nil => cases mem
  | cons piece pieces ih =>
    rw [repeatedValue, mem_append] at mem
    rcases mem with mem | mem
    · exact mem
    · rw [flatten_cons, mem_append]
      exact .inr (ih mem)

theorem repeatedValue_ne_nil {pieces : List (List Byte)} (some : pieces.flatten ≠ []) :
    repeatedValue pieces ≠ [] := by
  cases pieces with
  | nil => exact absurd rfl some
  | cons piece pieces =>
    rw [repeatedValue]
    exact fun none => some (append_eq_nil_iff.mp none).1

theorem cString_eq {s : List Byte} (string : 0 ∉ s) : cString s = s := by
  rw [cString, ← append_nil s, takeWhile_append_of_pos]
  · rfl
  · intro c mem
    exact bne_iff_ne.mpr fun zero => string (zero ▸ mem)

theorem MarcField.WellFormed.tag {f : MarcField} (wf : f.WellFormed) :
    f.tag.length = 3 ∧ 0 ∉ f.tag ∧ f.tag.head? ≠ some fieldSeparator ∧
      (decide (f.tag.take 2 = [48, 48]) = f.isControl) := by
  cases f with
  | control tag pieces =>
    obtain ⟨length, zeros, string, -, -⟩ := wf
    refine ⟨length, string, fun same => ?_, decide_eq_true zeros⟩
    dsimp only [MarcField.tag] at same
    cases tag with
    | nil => cases same
    | cons c tag =>
      cases same
      cases tag with
      | nil => cases length
      | cons d tag => cases zeros
  | data tag ind1 ind2 subfields =>
    obtain ⟨length, other, string, noSeparator, -⟩ := wf
    exact ⟨length, string, noSeparator, decide_eq_false other⟩

theorem fieldNodes_read (two : m.indicatorLength = 2) (two' : m.identifierLength = 2)
    (inRecord : e.endOffset < m.recordLength) (small : m.recordLength < bufSize) {f : MarcField}
    (wf : f.WellFormed) (tag : e.tag = f.tag) (holds : Holds buf e.start f.bytes)
    (ends : e.start + f.bytes.length = e.endOffset + 1) :
    fieldNodes true m buf e = .ok [f.written.node] := by
  obtain ⟨-, string, -, isControl⟩ := wf.tag
  have control : e.control = f.isControl := by
    rw [Entry.control, tag]
    exact isControl
  rw [fieldNodes, control, tag, cString_eq string, two]
  cases f with
  | control tag' pieces =>
    obtain ⟨-, -, -, some, plain⟩ := wf
    rw [MarcField.bytes, length_append, length_singleton] at ends
    rw [MarcField.bytes] at holds
    obtain ⟨value, -⟩ := holds_append.mp holds
    have pos := length_pos_iff.mpr (repeatedValue_ne_nil some)
    rw [MarcField.isControl, if_neg (by decide), subfields_text control inRecord small _ _ _
      (by omega) (by omega) (fun x from' to' => ?_) (by omega)]
    · rw [show e.endOffset - e.start = (repeatedValue pieces).length by omega,
        bytes_of_holds value]
      rfl
    · exact plain _ (mem_repeatedValue (mem_of_holds value from' (by omega)))
  | data tag' ind1 ind2 ss =>
    obtain ⟨-, -, -, -, some1, some2, -, wfSub⟩ := wf
    rw [MarcField.bytes, length_cons, length_cons, length_append,
      length_singleton] at ends
    rw [MarcField.bytes] at holds
    obtain ⟨first, second, rest⟩ := holds
    have indicators : bytes buf e.start 2 = [ind1, ind2] :=
      bytes_of_holds (s := [ind1, ind2]) ⟨first, second, trivial⟩
    rw [MarcField.isControl, if_pos (by decide), copy_ok (.inr (by omega)), indicators]
    simp only [Except.bind]
    rw [subfields_read control two' inRecord small ss wfSub (e.endOffset + 1) (e.start + 2) rest
      (by omega) (by omega)]
    have one : cString [ind1] = [ind1] := by simp [cString, some1]
    have other : cString [ind2] = [ind2] := by simp [cString, some2]
    have attributes : indicatorAttributes tag' [ind1, ind2] =
        [(asBytes "tag", tag'), (asBytes "ind1", [ind1]), (asBytes "ind2", [ind2])] := by
      have string' : 0 ∉ tag' := string
      rw [indicatorAttributes, cString_eq string']
      simp only [zipIdx_cons, zipIdx_nil, map_cons, map_nil, one, other]
      rfl
    dsimp only [MarcField.tag]
    rw [Except.map, attributes, if_pos trivial, MarcField.written, node, map_map]
    rfl

end

section

variable {buf : Nat → Byte} {m : Lengths} {p : Data1Marctab}

/-- A record's lengths are those of the table. -/
structure Agrees (m : Lengths) (p : Data1Marctab) : Prop where
  indicators : m.indicatorLength = 2
  identifiers : m.identifierLength = 2
  dataEntry : m.lengthDataEntry = p.lengthDataEntry
  starting : m.lengthStarting = p.lengthStarting
  small : m.recordLength < bufSize

theorem directory_entries (agrees : Agrees m p) (fields : List MarcField)
    (wf : ∀ f ∈ fields, f.WellFormed) (offset at' : Nat)
    (holds : Holds buf at' (entries p fields offset ++ [fieldSeparator]))
    (inRecord : at' + (entries p fields offset).length < m.recordLength) :
    Directory m buf at' (at' + (entries p fields offset).length) := by
  induction fields generalizing offset at' with
  | nil => exact .separator inRecord holds.1
  | cons f fields ih =>
    obtain ⟨length, -, noSeparator, -⟩ := (wf f mem_cons_self).tag
    have entry : m.entry = 3 + p.lengthDataEntry + p.lengthStarting := by
      rw [Lengths.entry, agrees.dataEntry, agrees.starting]
    rw [entries] at inRecord ⊢
    simp only [entries, append_assoc] at holds
    obtain ⟨tag, rest⟩ := holds_append.mp holds
    obtain ⟨size, rest⟩ := holds_append.mp rest
    obtain ⟨start, rest⟩ := holds_append.mp rest
    rw [digits_length] at start rest
    rw [digits_length, length] at rest
    rw [length] at size start
    simp only [length_append, digits_length, length] at inRecord ⊢
    have next := ih (fun g mem => wf g (.tail _ mem)) (offset + f.bytes.length)
      (at' + 3 + p.lengthDataEntry + p.lengthStarting) rest (by omega)
    rw [show at' + (3 + (p.lengthDataEntry + (p.lengthStarting +
        (entries p fields (offset + f.bytes.length)).length))) =
      at' + 3 + p.lengthDataEntry + p.lengthStarting +
        (entries p fields (offset + f.bytes.length)).length by omega]
    refine .entry (by omega) ?_ (fun i from' to' => ?_) ?_
    · intro same
      cases tagBytes : f.tag with
      | nil =>
        rw [tagBytes] at length
        cases length
      | cons c tag' =>
        rw [tagBytes] at tag noSeparator
        exact noSeparator (congrArg some (tag.1.symm.trans same))
    · rcases Nat.lt_or_ge i (at' + 3 + p.lengthDataEntry) with before | after
      · exact isDigit_of_mem_digits (mem_of_holds size from' (by rw [digits_length]; omega))
      · exact isDigit_of_mem_digits (mem_of_holds start after (by rw [digits_length]; omega))
    · rw [entry, show at' + (3 + p.lengthDataEntry + p.lengthStarting) =
        at' + 3 + p.lengthDataEntry + p.lengthStarting by omega]
      exact next

theorem readFields_read {atoiN : List Byte → Nat} (reads : ReadsDigits atoiN)
    (standard : Standard p) (agrees : Agrees m p) (fields : List MarcField)
    (wf : ∀ f ∈ fields, f.WellFormed) (short : ∀ f ∈ fields, f.bytes.length < 10000)
    (offset at' fuel : Nat) (enough : fields.length < fuel)
    (holds : Holds buf at' (entries p fields offset))
    (inRecord : at' + (entries p fields offset).length < m.recordLength)
    (data : Holds buf (m.baseAddress + offset) (fields.flatMap MarcField.bytes))
    (inside : m.baseAddress + offset + (fields.flatMap MarcField.bytes).length < m.recordLength) :
    readFields atoiN true m buf (at' + (entries p fields offset).length) fuel at' =
      .ok (fields.map fun f => f.written.node) := by
  have size : bufSize = 100000 := rfl
  have small := agrees.small
  induction fields generalizing offset at' fuel with
  | nil =>
    cases fuel with
    | zero => exact absurd enough (Nat.not_lt_zero _)
    | succ fuel => exact if_pos rfl
  | cons f fields ih =>
    have own := wf f mem_cons_self
    obtain ⟨length, -, -, -⟩ := own.tag
    have entry : m.entry = 3 + p.lengthDataEntry + p.lengthStarting := by
      rw [Lengths.entry, agrees.dataEntry, agrees.starting]
    obtain ⟨⟨lowEntry, -⟩, lowStart, -⟩ := And.intro standard.dataEntry standard.starting
    simp only [entries] at holds inRecord ⊢
    obtain ⟨tag, rest⟩ := holds_append.mp holds
    obtain ⟨sizeBytes, rest⟩ := holds_append.mp rest
    obtain ⟨startBytes, rest⟩ := holds_append.mp rest
    rw [digits_length] at startBytes rest
    rw [digits_length, length] at rest
    rw [length] at sizeBytes startBytes
    simp only [length_append, digits_length, length] at inRecord ⊢
    rw [flatMap_cons] at data
    rw [flatMap_cons, length_append] at inside
    obtain ⟨dataBytes, dataRest⟩ := holds_append.mp data
    have isShort := short f mem_cons_self
    have pos : 0 < f.bytes.length := by
      cases f with
      | control tag' pieces =>
        rw [MarcField.bytes, length_append, length_singleton]
        exact Nat.succ_pos _
      | data tag' ind1 ind2 ss =>
        rw [MarcField.bytes, length_cons]
        exact Nat.succ_pos _
    have tagAt : bytes buf at' 3 = f.tag := by
      rw [← length]
      exact bytes_of_holds tag
    have sizeAt : bytes buf (at' + 3) p.lengthDataEntry =
        digits p.lengthDataEntry f.bytes.length := by
      have own := bytes_of_holds sizeBytes
      rwa [digits_length] at own
    have startAt : bytes buf (at' + 3 + p.lengthDataEntry) p.lengthStarting =
        digits p.lengthStarting offset := by
      have own := bytes_of_holds startBytes
      rwa [digits_length] at own
    have fits : f.bytes.length < 10 ^ p.lengthDataEntry :=
      Nat.lt_of_lt_of_le (show f.bytes.length < 10 ^ 4 by omega)
        (Nat.pow_le_pow_right (by decide) lowEntry)
    have fits' : offset < 10 ^ p.lengthStarting :=
      Nat.lt_of_lt_of_le (show offset < 10 ^ 5 by omega)
        (Nat.pow_le_pow_right (by decide) lowStart)
    have found : entryAt atoiN m buf at' = ⟨f.tag, f.bytes.length, m.baseAddress + offset⟩ := by
      rw [entryAt, tagAt, agrees.dataEntry, agrees.starting, sizeAt, startAt, reads _ _ fits,
        reads _ _ fits', Nat.add_comm offset]
    have endOffset : (Entry.mk f.tag f.bytes.length (m.baseAddress + offset)).endOffset =
        m.baseAddress + offset + f.bytes.length - 1 := rfl
    cases fuel with
    | zero => exact absurd enough (Nat.not_lt_zero _)
    | succ fuel =>
      have next := ih (fun g mem => wf g (.tail _ mem))
        (fun g mem => short g (.tail _ mem)) (offset + f.bytes.length)
        (at' + 3 + p.lengthDataEntry + p.lengthStarting) fuel (Nat.lt_of_succ_lt_succ enough)
        rest (by omega) (by rwa [← Nat.add_assoc]) (by omega)
      rw [readFields, if_neg (by omega), copy_ok (.inr (by omega))]
      simp only [Except.bind]
      rw [found, if_pos, fieldNodes_read agrees.indicators agrees.identifiers (by
        rw [endOffset]
        omega) small own rfl dataBytes (by
        rw [endOffset]
        dsimp only
        omega)]
      · simp only
        rw [entry, show at' + (3 + p.lengthDataEntry + p.lengthStarting) =
            at' + 3 + p.lengthDataEntry + p.lengthStarting by omega,
          show at' + (3 + (p.lengthDataEntry + (p.lengthStarting +
            (entries p fields (offset + f.bytes.length)).length))) =
          at' + 3 + p.lengthDataEntry + p.lengthStarting +
            (entries p fields (offset + f.bytes.length)).length by omega, next]
        rfl
      · rw [Entry.good, endOffset, Bool.and_eq_true, decide_eq_true_eq, decide_eq_true_eq]
        exact ⟨pos, by omega⟩

end

theorem isDigit_head {n : Nat} {rest : List Byte} :
    ((digits 5 n ++ rest).head?.any isDigit) = true := by
  have some : digits 5 n ≠ [] := ne_nil_of_length_eq_add_one (digits_length 5 n)
  cases at' : digits 5 n with
  | nil => exact absurd at' some
  | cons c s =>
    have mem : c ∈ digits 5 n := by
      rw [at']
      exact .head _
    exact isDigit_of_mem_digits mem

theorem skipBad_digit {first stream : List Byte} (digit : (first.head?.any isDigit) = true) :
    skipBad first stream = some (first, stream) := by
  cases stream with
  | nil => rw [skipBad, if_pos digit]
  | cons c stream => rw [skipBad, if_pos digit]

theorem loadRecord_whole {atoiN : List Byte → Nat} (reads : ReadsDigits atoiN)
    (garbage : Nat → Byte) {n : Nat} {rest : List Byte} (length : 5 + rest.length = n)
    (long : 25 ≤ n) (small : n < 100000) :
    loadRecord atoiN garbage (digits 5 n ++ rest) =
      .ok (some
        { buf := fun i => (digits 5 n ++ rest).getD i (garbage i)
          recordLength := n }) := by
  have size : bufSize = 100000 := rfl
  have five := digits_length 5 n
  have total : (digits 5 n ++ rest).length = n := by rw [length_append, five, length]
  have front : (digits 5 n ++ rest).take 5 = digits 5 n := by
    rw [take_append_of_le_length (Nat.le_of_eq five.symm),
      take_of_length_le (Nat.le_of_eq five)]
  have back : (digits 5 n ++ rest).drop 5 = rest := by
    rw [drop_append_of_le_length (Nat.le_of_eq five.symm),
      drop_eq_nil_of_le (Nat.le_of_eq five), nil_append]
  have digit : ((digits 5 n).head?.any isDigit) = true := by
    have own := @isDigit_head n []
    rwa [append_nil] at own
  rw [loadRecord, if_neg (by omega), front, back, skipBad_digit digit]
  dsimp only
  rw [reads 5 n small, if_neg (by omega), readf, if_pos (by omega),
    take_of_length_le (by omega), drop_eq_nil_of_le (by omega)]
  simp only [Except.bind]
  rw [total, if_neg (Nat.lt_irrefl n), skipToSeparator]
  simp only
  rw [readf, if_pos (by omega), total]
  simp only [take_nil, append_nil]
  rfl

theorem grsReadIso2709_bytes {atoiN : List Byte → Nat} (reads : ReadsDigits atoiN)
    (garbage : Nat → Byte) (type : List Byte) (standard : Standard p)
    {r : MarcRecord} {l : LeaderParts} (writable : Writable p r l) :
    ∃ leader, grsReadIso2709 atoiN none none true type garbage (r.bytes p l) =
      .ok (some (recordNode true type leader (r.fields.map fun f => f.written.node))) := by
  have size : bufSize = 100000 := rfl
  have total := writable.total
  have base : r.base p = 25 + r.fields.length * (3 + p.lengthDataEntry + p.lengthStarting) := rfl
  have length : r.length p = r.base p + (r.fields.flatMap MarcField.bytes).length + 1 := rfl
  have dirLength := entries_length (p := p) r.fields writable.fields 0
  have leader24 := (l.fill (r.length p) (r.base p)).bytes_length p
  -- the record from its first five bytes on
  obtain ⟨rest, whole, restLength⟩ : ∃ rest, r.bytes p l = digits 5 (r.length p) ++ rest ∧
      5 + rest.length = r.length p := by
    refine ⟨l.status ++ ([50, 50] ++ (digits 5 (r.base p) ++ (l.user ++
      ([48 + p.lengthDataEntry, 48 + p.lengthStarting] ++ l.rest)))) ++
        (entries p r.fields 0 ++ (fieldSeparator ::
          (r.fields.flatMap MarcField.bytes ++ [recordSeparator]))), ?_, ?_⟩
    · rw [MarcRecord.bytes, LeaderParts.bytes]
      exact append_assoc _ _ _
    · simp only [length_append, length_cons, length_nil, l.status_length,
        l.user_length, l.rest_length, digits_length, dirLength]
      omega
  have loaded := loadRecord_whole reads garbage restLength (by omega) (by omega)
  rw [← whole] at loaded
  generalize bufEq : (fun i => (r.bytes p l).getD i (garbage i)) = buf at loaded
  have holds : Holds buf 0 (r.bytes p l) := by
    refine holds_of_get fun j c at' => ?_
    rw [← bufEq, Nat.zero_add]
    dsimp only
    rw [getD_eq_getElem?_getD, at', Option.getD_some]
  rw [MarcRecord.bytes] at holds
  obtain ⟨leaderAt, afterLeader⟩ := holds_append.mp holds
  rw [leader24, Nat.zero_add] at afterLeader
  obtain ⟨dirAt, separatorAt, dataAt'⟩ := holds_append.mp afterLeader
  obtain ⟨dataAt, -⟩ := holds_append.mp dataAt'
  rw [LeaderParts.bytes] at leaderAt
  obtain ⟨-, leaderAt⟩ := holds_append.mp leaderAt
  obtain ⟨-, leaderAt⟩ := holds_append.mp leaderAt
  rw [(l.fill (r.length p) (r.base p)).length_length,
    (l.fill (r.length p) (r.base p)).status_length] at leaderAt
  obtain ⟨⟨indicatorAt, identifierAt, -⟩, leaderAt⟩ := holds_append.mp leaderAt
  obtain ⟨baseAt, leaderAt⟩ := holds_append.mp leaderAt
  obtain ⟨-, leaderAt⟩ := holds_append.mp leaderAt
  rw [(l.fill (r.length p) (r.base p)).base_length,
    (l.fill (r.length p) (r.base p)).user_length] at leaderAt
  obtain ⟨⟨entryAt', startingAt, -⟩, -⟩ := holds_append.mp leaderAt
  have single {i : Nat} {c : Byte} (here : buf i = c) : bytes buf i 1 = [c] :=
    bytes_of_holds (s := [c]) ⟨here, trivial⟩
  have baseBytes : bytes buf 12 5 = digits 5 (r.base p) := by
    have own := bytes_of_holds baseAt
    rwa [(l.fill (r.length p) (r.base p)).base_length] at own
  have lengths : Loaded.lengths atoiN none none ⟨buf, r.length p⟩ =
      ⟨r.length p, 2, 2, r.base p, p.lengthDataEntry, p.lengthStarting⟩ := by
    have two := reads.single (n := 2) (by decide)
    simp only [Loaded.lengths, Option.getD_none]
    rw [single (i := 10) indicatorAt, single (i := 11) identifierAt, baseBytes,
      single (i := 20) entryAt', single (i := 21) startingAt, two,
      reads 5 (r.base p) (by omega), reads.single (by have := standard.dataEntry; omega),
      reads.single (by have := standard.starting; omega)]
  have agrees : Agrees ⟨r.length p, 2, 2, r.base p, p.lengthDataEntry, p.lengthStarting⟩ p :=
    ⟨rfl, rfl, rfl, rfl, by dsimp only; omega⟩
  have directory := directory_entries agrees r.fields writable.fields 0 24
    (holds_append.mpr ⟨dirAt, separatorAt, trivial⟩) (by dsimp only; omega)
  refine ⟨bytes buf 0 24, ?_⟩
  rw [grsReadIso2709, loaded]
  simp only [Except.bind]
  rw [lengths, copy_ok (.inr (by dsimp only; omega))]
  simp only
  rcases @scanDirectory_ok ⟨r.length p, 2, 2, r.base p, p.lengthDataEntry, p.lengthStarting⟩
    buf (by dsimp only; omega) (r.length p + 1) 24 (by dsimp only; omega)
    (by dsimp only; omega) with ⟨-, none⟩ | ⟨d, found, -, only⟩
  · exact absurd directory (none _)
  obtain rfl := only _ directory
  rw [found]
  simp only
  rw [readFields_read reads standard agrees r.fields writable.fields writable.short 0 24
    (r.length p + 1) ?_ dirAt (by dsimp only; omega) ?_ (by dsimp only; omega)]
  · rfl
  · have three : r.fields.length ≤ r.fields.length * (3 + p.lengthDataEntry + p.lengthStarting) :=
      Nat.le_mul_of_pos_right _ (by omega)
    omega
  · dsimp only
    rw [Nat.add_zero, show r.base p = 24 + (entries p r.fields 0).length + 1 by omega]
    exact dataAt

theorem repeatedValue_eq_nil_iff (pieces : List (List Byte)) :
    repeatedValue pieces = [] ↔ pieces.flatten = [] := by
  refine ⟨fun none => by_contra fun some => repeatedValue_ne_nil some none, fun none => ?_⟩
  induction pieces with
  | nil => rfl
  | cons piece pieces ih =>
    rw [repeatedValue, none, nil_append]
    rw [flatten_cons] at none
    exact ih (append_eq_nil_iff.mp none).2

/-- The nodes of a field are written as they are if they have its value in the first node. -/
theorem written_node_iff (f : MarcField) : f.written.node = f.joined.node ↔ f.SingleNode := by
  cases f with
  | control tag pieces =>
    have value : repeatedValue pieces = pieces.flatten ↔ pieces.tail.flatten = [] := by
      cases pieces with
      | nil => exact iff_of_true rfl rfl
      | cons piece pieces =>
        rw [repeatedValue, append_right_eq_self, repeatedValue_eq_nil_iff]
        rfl
    refine Iff.trans ⟨fun same => ?_, fun same => ?_⟩ value
    · simpa [MarcField.written, MarcField.joined, node] using same
    · rw [MarcField.written, MarcField.joined, same]
  | data tag ind1 ind2 ss => exact iff_of_true rfl trivial

/-- Both passes over a record agree, and what they write is read with the same tags, indicators,
codes and values if and only if each control field has its value in its first data node. -/
theorem nodetomarc_grsReadIso2709_iff {atoiN : List Byte → Nat} (reads : ReadsDigits atoiN)
    (garbage garbage' : Nat → Byte) (type : List Byte) {p : Data1Marctab} (standard : Standard p)
    {mc : List Byte → Bool} (unmatched : Unmatched mc) {r : MarcRecord} {l : LeaderParts}
    (writable : Writable p r l) :
    ∃ out, nodetomarc garbage p mc r.nodes = some out ∧
      ((∃ leader, grsReadIso2709 atoiN none none true type garbage' out =
          .ok (some (recordNode true type leader (r.fields.map fun f => f.joined.node)))) ↔
        ∀ f ∈ r.fields, f.SingleNode) := by
  refine ⟨r.bytes p l, nodetomarc_bytes garbage standard unmatched writable, ?_⟩
  obtain ⟨leader, read⟩ := grsReadIso2709_bytes reads garbage' type standard writable
  rw [read]
  constructor
  · rintro ⟨leader', same⟩ f mem
    have trees := Option.some.inj (Except.ok.inj same)
    rw [recordNode, recordNode, if_pos rfl, if_pos rfl] at trees
    injection trees with _ _ children
    injection children with _ nodes
    exact (written_node_iff f).mp (map_inj_left.mp nodes f mem)
  · intro single
    have nodes : (r.fields.map fun f => f.written.node) = r.fields.map fun f => f.joined.node :=
      map_congr_left fun f mem => (written_node_iff f).mpr (single f mem)
    exact ⟨leader, by rw [nodes]⟩

theorem digitsValue_digits : ReadsDigits digitsValue := by
  intro k
  induction k with
  | zero =>
    intro n small
    have zero : n = 0 := Nat.lt_one_iff.mp small
    rw [zero]
    rfl
  | succ k ih =>
    intro n small
    have shorter : n / 10 < 10 ^ k := by
      rw [Nat.div_lt_iff_lt_mul (by decide)]
      rwa [Nat.pow_succ] at small
    have digit := isDigit_of_mem_digits (k := 1) (n := n) (c := 48 + n % 10) (by simp [digits])
    have last : digitsValue (digits k (n / 10) ++ [48 + n % 10]) =
        digitsValue (digits k (n / 10)) * 10 + (48 + n % 10 - 48) := by
      rw [digitsValue, foldl_append, foldl_cons, foldl_nil, if_pos digit]
      rfl
    rw [digits, last, ih _ shorter, Nat.add_sub_cancel_left]
    omega

def marc21 : Data1Marctab where
  recordStatus := 110
  implementationCodes := [32, 32, 32, 32]
  indicatorLength := 2
  identifierLength := 2
  userSystems := [122, 32, 32]
  lengthDataEntry := 4
  lengthStarting := 5
  lengthImplementation := 0
  futureUse := 52
  implementationCodes_length := rfl
  userSystems_length := rfl

theorem standard_marc21 : Standard marc21 :=
  ⟨rfl, rfl, ⟨by decide, by decide⟩, ⟨by decide, by decide⟩, rfl⟩

/-- The leader `00000nam  22000007a 4500` -/
def plainLeader : LeaderParts where
  length := [48, 48, 48, 48, 48]
  status := [110, 97, 109, 32, 32]
  base := [48, 48, 48, 48, 48]
  user := [55, 97, 32]
  rest := [48, 48]
  length_length := rfl
  status_length := rfl
  base_length := rfl
  user_length := rfl
  rest_length := rfl

def controlRecord (pieces : List (List Byte)) : MarcRecord where
  leader := [plainLeader.bytes marc21]
  fields := [.control [48, 48, 49] pieces]

theorem writable_controlRecord {pieces : List (List Byte)} (some : pieces.flatten ≠ [])
    (plain : ∀ c ∈ pieces.flatten, MarcField.plain c)
      (short : (repeatedValue pieces).length < 9999) :
    Writable marc21 (controlRecord pieces) plainLeader := by
  refine ⟨by simp [controlRecord], ?_, ?_, ?_⟩
  · intro f mem
    rw [mem_singleton.mp mem]
    exact ⟨rfl, rfl, by decide, some, plain⟩
  · intro f mem
    rw [mem_singleton.mp mem, MarcField.bytes, length_append, length_singleton]
    omega
  · simp only [MarcRecord.length, MarcRecord.base, controlRecord, marc21, length_singleton,
      flatMap_cons, flatMap_nil, append_nil, MarcField.bytes, length_append]
    omega

/-- No tag matches `mc?`. -/
def noMatch (_ : List Byte) : Bool := false

/-- `001 ab` and `245 10 $a c, in two data nodes d, $b e` -/
def twoFields : MarcRecord where
  leader := [plainLeader.bytes marc21]
  fields := [.control [48, 48, 49] [[97, 98]],
    .data [50, 52, 53] 49 48 [(97, [[99], [100]]), (98, [[101]])]]

theorem writable_twoFields : Writable marc21 twoFields plainLeader := by
  have plain : ∀ c ∈ ([97, 98, 99, 100, 101] : List Byte), MarcField.plain c := by
    simp [MarcField.plain, recordSeparator, fieldSeparator, identifierSeparator]
  refine ⟨by simp [twoFields], ?_, by decide, by decide⟩
  rw [twoFields, forall_mem_cons, forall_mem_singleton]
  refine ⟨⟨rfl, rfl, by decide, by decide, fun c mem => plain c ?_⟩, rfl, by decide, by decide,
    by decide, by decide, by decide, by decide, ?_⟩
  · revert c
    decide
  · rw [forall_mem_cons, forall_mem_singleton]
    refine ⟨⟨by decide, by decide, fun c mem => plain c ?_⟩, by decide, by decide,
      fun c mem => plain c ?_⟩
    · revert c
      decide
    · revert c
      decide

theorem nodetomarc_grsReadIso2709_iff_fields :
    ∃ out, nodetomarc (fun _ => 0) marc21 noMatch twoFields.nodes = some out ∧
      ((∃ leader, grsReadIso2709 digitsValue none none true [] (fun _ => 0) out =
          .ok (some (recordNode true [] leader (twoFields.fields.map fun f => f.joined.node)))) ↔
        ∀ f ∈ twoFields.fields, f.SingleNode) :=
  nodetomarc_grsReadIso2709_iff digitsValue_digits (fun _ => 0) (fun _ => 0) [] standard_marc21
    ⟨rfl, rfl, rfl⟩ writable_twoFields

/-- A control field with the value `ab` in two data nodes is written as `abb`. -/
theorem not_nodetomarc_grsReadIso2709 :
    ¬ ∀ (atoiN : List Byte → Nat), ReadsDigits atoiN → ∀ (garbage garbage' : Nat → Byte)
      (type : List Byte) (p : Data1Marctab), Standard p → ∀ mc, Unmatched mc →
      ∀ (r : MarcRecord) (l : LeaderParts), Writable p r l →
      ∃ out leader, nodetomarc garbage p mc r.nodes = some out ∧
        grsReadIso2709 atoiN none none true type garbage' out =
          .ok (some (recordNode true type leader (r.fields.map fun f => f.joined.node))) := by
  intro roundTrip
  have writable := @writable_controlRecord [[97], [98]] (by decide) (by
    simp [MarcField.plain, recordSeparator, fieldSeparator, identifierSeparator]) (by decide)
  obtain ⟨out, leader, written, read⟩ := roundTrip digitsValue digitsValue_digits (fun _ => 0)
    (fun _ => 0) [] marc21 standard_marc21 noMatch ⟨rfl, rfl, rfl⟩ _ _ writable
  have bytes := @nodetomarc_bytes (fun _ => 0) _ standard_marc21 noMatch ⟨rfl, rfl,
      rfl⟩ _ _ writable
  obtain rfl := Option.some.inj (written.symm.trans bytes)
  obtain ⟨leader', read'⟩ :=
    grsReadIso2709_bytes digitsValue_digits (fun _ => 0) [] standard_marc21 writable
  have trees := Option.some.inj (Except.ok.inj (read.symm.trans read'))
  rw [recordNode, recordNode, if_pos rfl, if_pos rfl] at trees
  injection trees with _ _ children
  injection children with _ nodes
  have same := map_inj_left.mp nodes (.control [48, 48, 49] [[97], [98]])
    (mem_singleton_self _)
  have single := (written_node_iff _).mp same.symm
  revert single
  simp [MarcField.SingleNode]

end Zebra.Marc
