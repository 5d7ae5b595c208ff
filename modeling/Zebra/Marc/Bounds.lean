import Mathlib.Data.List.Induction
import Zebra.Marc.Read

/-!
# The reader and the bounds of its record

The record and its directory are read within the buffer, whatever their lengths claim.  The data of
a field end in the record; the indicators in front of them and the identifier of a subfield are
taken with their full length, from wherever the field or the subfield begins.
-/

namespace Zebra.Marc

open List

/-- A run returns if and only if `P` holds, and otherwise it stops for an access. -/
def Settles {α : Type} (run : Except Stop α) (P : Prop) : Prop :=
  match run with
  | .ok _ => P
  | .error stop => stop ≠ .fuel ∧ ¬ P

section

variable {α β : Type} {run : Except Stop α} {P Q : Prop}

theorem Settles.iff (settles : Settles run P) (same : P ↔ Q) : Settles run Q := by
  cases run with
  | ok x => exact same.mp settles
  | error stop => exact ⟨settles.1, fun q => settles.2 (same.mpr q)⟩

theorem Settles.map (settles : Settles run P) (f : α → β) : Settles (run.map f) P := by
  cases run with
  | ok x => exact settles
  | error stop => exact settles

theorem Settles.bind (settles : Settles run P) {f : α → Except Stop β}
    (next : ∀ x, run = .ok x → P → Settles (f x) Q) (needs : Q → P) : Settles (run.bind f) Q := by
  cases run with
  | ok x => exact next x rfl settles
  | error stop => exact ⟨settles.1, fun q => settles.2 (needs q)⟩

theorem Settles.bind_ok {f : α → Except Stop β} {x : α} (ok : run = .ok x)
    (next : Settles (f x) Q) : Settles (run.bind f) Q := by
  rw [ok]
  exact next

end

/-- A text from `i` on ends at a separator or at the end of the field. -/
structure TextEnd (buf : Nat → Byte) (endOffset i after : Nat) : Prop where
  le : i ≤ after
  inside : ∀ x, i ≤ x → x < after → x < endOffset ∧ buf x ≠ recordSeparator ∧
    buf x ≠ identifierSeparator ∧ buf x ≠ fieldSeparator
  stop : after < endOffset → buf after = recordSeparator ∨ buf after = identifierSeparator ∨
    buf after = fieldSeparator

/-- From `i` on, a subfield of the field begins at `p`. -/
inductive SubfieldStart (m : Lengths) (buf : Nat → Byte) (e : Entry) : Nat → Nat → Prop where
  | here {i : Nat} : i < e.endOffset → buf i ≠ recordSeparator → buf i ≠ fieldSeparator →
      SubfieldStart m buf e i i
  | next {i after p : Nat} : i < e.endOffset → buf i ≠ recordSeparator → buf i ≠ fieldSeparator →
      TextEnd buf e.endOffset (i + m.identifierLength) after → SubfieldStart m buf e after p →
      SubfieldStart m buf e i p

/-- The identifiers of the subfields from `i` on lie in the record, and the buffer has a place
behind each of them. -/
def IdentifiersInside (marcXml : Bool) (m : Lengths) (buf : Nat → Byte) (e : Entry)
    (i : Nat) : Prop :=
  ∀ p, SubfieldStart m buf e i p →
    p + 1 + codeLength marcXml m ≤ m.recordLength ∧ p + m.identifierLength < bufSize

/-- The indicators of a data field and the identifiers of its subfields lie in the record. -/
def FieldInside (marcXml : Bool) (m : Lengths) (buf : Nat → Byte) (e : Entry) : Prop :=
  e.control = false →
    e.start + m.indicatorLength ≤ m.recordLength ∧
      (m.identifierLength ≠ 0 → IdentifiersInside marcXml m buf e (e.start + m.indicatorLength))

/-- A directory goes from one place to another, where it ends or breaks off. -/
inductive Directory (m : Lengths) (buf : Nat → Byte) : Nat → Nat → Prop where
  | separator {p : Nat} : p < m.recordLength → buf p = fieldSeparator → Directory m buf p p
  | broken {p i : Nat} : p + m.entry < m.recordLength → buf p ≠ fieldSeparator →
      p + 3 ≤ i → i < p + m.entry → isDigit (buf i) = false → Directory m buf p p
  | entry {p d : Nat} : p + m.entry < m.recordLength → buf p ≠ fieldSeparator →
      (∀ i, p + 3 ≤ i → i < p + m.entry → isDigit (buf i) = true) →
      Directory m buf (p + m.entry) d → Directory m buf p d

/-- From `p` on, the entry at `q` is reached: those in front of it are good. -/
inductive Reached (atoiN : List Byte → Nat) (m : Lengths) (buf : Nat → Byte) (d : Nat) :
    Nat → Nat → Prop where
  | here {p : Nat} : p ≠ d → Reached atoiN m buf d p p
  | next {p q : Nat} : p ≠ d → (entryAt atoiN m buf p).good m = true →
      Reached atoiN m buf d (p + m.entry) q → Reached atoiN m buf d p q

/-- All fields that are read lie in the record with their indicators and identifiers. -/
def FieldsInside (atoiN : List Byte → Nat) (marcXml : Bool) (m : Lengths) (buf : Nat → Byte)
    (d p : Nat) : Prop :=
  ∀ q, Reached atoiN m buf d p q → (entryAt atoiN m buf q).good m = true →
    FieldInside marcXml m buf (entryAt atoiN m buf q)

variable {buf : Nat → Byte}
variable {i p : Nat}

theorem byteAt_ok (inside : i < bufSize) : byteAt buf i = .ok (buf i) :=
  if_pos inside

variable {m : Lengths}

theorem copy_ok {n : Nat} (inside : n = 0 ∨ i + n ≤ m.recordLength) :
    copy m buf i n = .ok (bytes buf i n) :=
  if_pos inside

theorem copy_settles (m : Lengths) (buf : Nat → Byte) (i n : Nat) :
    Settles (copy m buf i n) (n = 0 ∨ i + n ≤ m.recordLength) := by
  unfold copy
  split
  · rename_i inside
    exact inside
  · rename_i behind
    refine ⟨?_, behind⟩
    intro same
    cases same

/-- A text ends before the end of its field, or where it begins. -/
theorem TextEnd.le_or {endOffset after : Nat}
    (text : TextEnd buf endOffset i after) : after = i ∨ after ≤ endOffset := by
  rcases Nat.eq_or_lt_of_le text.le with same | less
  · exact .inl same.symm
  · exact .inr (by have := (text.inside (after - 1) (by omega) (by omega)).1; omega)

theorem TextEnd.unique {buf : Nat → Byte} {endOffset i after after' : Nat}
    (one : TextEnd buf endOffset i after) (two : TextEnd buf endOffset i after') :
      after = after' := by
  have not_lt {a b : Nat} (first : TextEnd buf endOffset i a) (second : TextEnd buf endOffset i b) :
      ¬ a < b := by
    intro less
    obtain ⟨before, noRecord, noIdentifier, noField⟩ := second.inside a first.le less
    rcases first.stop before with same | same | same
    · exact noRecord same
    · exact noIdentifier same
    · exact noField same
  exact Nat.le_antisymm (Nat.le_of_not_lt (not_lt two one)) (Nat.le_of_not_lt (not_lt one two))

theorem textEnd_ok {buf : Nat → Byte} {endOffset : Nat} (small : endOffset < bufSize) (fuel i : Nat)
    (inside : i < bufSize) (enough : endOffset < i + fuel) (pos : 0 < fuel) :
    ∃ after, textEnd buf endOffset fuel i = .ok after ∧ TextEnd buf endOffset i after := by
  induction fuel generalizing i with
  | zero => exact absurd pos (Nat.lt_irrefl 0)
  | succ fuel ih =>
    rw [textEnd, byteAt_ok inside]
    simp only [Except.bind]
    split
    · rename_i more
      obtain ⟨noRecord, noIdentifier, noField, less⟩ := more
      obtain ⟨after, found, text⟩ := ih (i + 1) (by omega) (by omega) (by omega)
      refine ⟨after, found, Nat.le_of_succ_le text.le, fun x from' to' => ?_, text.stop⟩
      rcases Nat.eq_or_lt_of_le from' with rfl | later
      · exact ⟨less, noRecord, noIdentifier, noField⟩
      · exact text.inside x later to'
    · rename_i ends
      refine ⟨i, rfl, le_rfl, fun x from' to' => absurd to' (Nat.not_lt_of_le from'),
        fun less => ?_⟩
      by_contra none
      push Not at none
      exact ends ⟨none.1, none.2.1, none.2.2, less⟩

variable {e : Entry}

/-- Where a subfield begins, the next begins where its text ends. -/
theorem subfieldStart_iff {after : Nat}
    (less : i < e.endOffset) (noRecord : buf i ≠ recordSeparator) (noField : buf i ≠ fieldSeparator)
    (text : TextEnd buf e.endOffset (i + m.identifierLength) after) :
    SubfieldStart m buf e i p ↔ p = i ∨ SubfieldStart m buf e after p := by
  constructor
  · intro start
    cases start with
    | here => exact .inl rfl
    | next _ _ _ text' rest =>
      rw [text.unique text']
      exact .inr rest
  · rintro (rfl | rest)
    · exact .here less noRecord noField
    · exact .next less noRecord noField text rest

variable {marcXml : Bool}

/-- The subfields of a data field are read if their identifiers lie in the record. -/
theorem subfields_settles (data : e.control = false) (identifiers : m.identifierLength ≠ 0)
    (inRecord : e.endOffset < m.recordLength) (small : m.recordLength < bufSize) (fuel i : Nat)
    (inside : i < bufSize) (enough : e.endOffset < i + fuel) (pos : 0 < fuel) :
    Settles (subfields marcXml m buf e fuel i i) (IdentifiersInside marcXml m buf e i) := by
  induction fuel generalizing i with
  | zero => exact absurd pos (Nat.lt_irrefl 0)
  | succ fuel ih =>
    rw [subfields]
    refine .bind_ok (byteAt_ok inside) ?_
    split
    · rename_i more
      obtain ⟨noRecord, noField, less⟩ := more
      rw [if_pos (by rw [data]; simpa using identifiers)]
      have here := SubfieldStart.here (m := m) less noRecord noField
      refine (copy_settles m buf (i + 1) (codeLength marcXml m)).bind (fun code _ within => ?_)
        fun all => .inr (all i here).1
      by_cases far : i + m.identifierLength < bufSize
      swap
      · rw [textEnd, byteAt, if_neg far]
        refine ⟨?_, fun all => far (all i here).2⟩
        intro same
        cases same
      obtain ⟨after, found, text⟩ := textEnd_ok (by omega : e.endOffset < bufSize) (e.endOffset + 1)
        (i + m.identifierLength) far (by omega) (Nat.succ_pos _)
      refine .bind_ok found (.bind_ok (copy_ok ?_) ?_)
      · rcases text.le_or with same | before
        · exact .inl (by omega)
        · have le := text.le
          exact .inr (by omega)
      · have le := text.le
        have rest := ih after (by rcases text.le_or with same | before <;> omega) (by omega)
          (by omega)
        refine (rest.map _).iff ?_
        unfold IdentifiersInside
        constructor
        · intro all p start
          rcases (subfieldStart_iff less noRecord noField text).mp start with rfl | later
          · refine ⟨?_, far⟩
            rcases within with zero | within
            · omega
            · exact within
          · exact all p later
        · intro all p start
          exact all p ((subfieldStart_iff less noRecord noField text).mpr (.inr start))
    · rename_i ends
      rw [if_neg (Nat.lt_irrefl i)]
      intro p start
      have none : ¬ (buf i ≠ recordSeparator ∧ buf i ≠ fieldSeparator ∧ i < e.endOffset) := ends
      cases start with
      | here less noRecord noField => exact absurd ⟨noRecord, noField, less⟩ none
      | next less noRecord noField => exact absurd ⟨noRecord, noField, less⟩ none

theorem subfields_plain {marcXml : Bool} {m : Lengths} {buf : Nat → Byte} {e : Entry}
    (plain : e.control = true ∨ m.identifierLength = 0) (inRecord : e.endOffset < m.recordLength)
    (small : m.recordLength < bufSize) (fuel i i0 : Nat) (inside : i ≤ m.recordLength)
    (enough : e.endOffset < i + fuel) (pos : 0 < fuel) :
    ∃ nodes, subfields marcXml m buf e fuel i i0 = .ok nodes := by
  induction fuel generalizing i with
  | zero => exact absurd pos (Nat.lt_irrefl 0)
  | succ fuel ih =>
    rw [subfields, byteAt_ok (by omega)]
    simp only [Except.bind]
    split
    · rename_i more
      rw [if_neg]
      · exact ih (i + 1) (by omega) (by omega) (by omega)
      · rcases plain with control | zero
        · simp [control]
        · simp [zero]
    · split
      · rename_i stored
        rw [copy_ok (.inr (by omega))]
        exact ⟨_, rfl⟩
      · exact ⟨_, rfl⟩

theorem Settles.of_ok {α : Type} {run : Except Stop α} (ok : ∃ x, run = .ok x) {P : Prop}
    (holds : P) :
    Settles run P := by
  obtain ⟨x, same⟩ := ok
  rw [same]
  exact holds

/-- The subfields of a data field are read, with identifiers or without. -/
theorem subfields_data (data : e.control = false) (inRecord : e.endOffset < m.recordLength)
    (small : m.recordLength < bufSize) (inside : i ≤ m.recordLength) :
    Settles (subfields marcXml m buf e (e.endOffset + 1) i i)
      (m.identifierLength ≠ 0 → IdentifiersInside marcXml m buf e i) := by
  by_cases none : m.identifierLength = 0
  · exact .of_ok (subfields_plain (.inr none) inRecord small _ i i inside (by omega)
      (Nat.succ_pos _)) fun some => absurd none some
  · exact (subfields_settles data none inRecord small _ i (by omega) (by omega)
      (Nat.succ_pos _)).iff ⟨fun all _ => all, fun all => all none⟩

theorem fieldNodes_settles
    (inRecord : e.endOffset < m.recordLength) (start : e.start ≤ m.recordLength)
    (small : m.recordLength < bufSize) :
    Settles (fieldNodes marcXml m buf e) (FieldInside marcXml m buf e) := by
  unfold fieldNodes
  cases data : e.control with
  | true =>
    rw [if_neg (by simp)]
    refine .of_ok ?_ fun other => Bool.noConfusion (data.symm.trans other)
    obtain ⟨nodes, read⟩ := @subfields_plain marcXml _ buf _ (.inl data) inRecord
      small (e.endOffset + 1) e.start e.start start (by omega) (Nat.succ_pos _)
    rw [read]
    exact ⟨_, rfl⟩
  | false =>
    by_cases none : m.indicatorLength = 0
    · rw [if_neg (by simp [none])]
      refine ((subfields_data data inRecord small start).map _).iff ?_
      unfold FieldInside
      rw [none, Nat.add_zero]
      exact ⟨fun all _ => ⟨start, all⟩, fun all => (all data).2⟩
    · rw [if_pos (by simpa using none)]
      refine (copy_settles m buf e.start m.indicatorLength).bind (fun indicators _ within => ?_)
        fun all => .inr (all data).1
      have inside := within.resolve_left none
      refine ((subfields_data data inRecord small inside).map _).iff ?_
      exact ⟨fun all _ => ⟨inside, all⟩, fun all => (all data).2⟩

theorem allDigits_ok {buf : Nat → Byte} (i n : Nat) (inside : i + n ≤ bufSize) :
    ∃ digits, allDigits buf i n = .ok digits ∧
      (digits = true ↔ ∀ x, i ≤ x → x < i + n → isDigit (buf x) = true) := by
  induction n with
  | zero => exact ⟨true, rfl,
      iff_of_true rfl fun x from' to' => absurd to' (Nat.not_lt_of_le from')⟩
  | succ n ih =>
    rw [allDigits, byteAt_ok (by omega)]
    simp only [Except.bind]
    split
    · rename_i digit
      obtain ⟨digits, looked, same⟩ := ih (by omega)
      refine ⟨digits, looked, same.trans ⟨fun all x from' to' => ?_, fun all x from' to' => ?_⟩⟩
      · rcases Nat.lt_or_ge x (i + n) with before | last
        · exact all x from' before
        · rwa [show x = i + n by omega]
      · exact all x from' (by omega)
    · rename_i other
      exact ⟨false, rfl, iff_of_false Bool.false_ne_true fun all =>
        other (all (i + n) (by omega) (by omega))⟩

theorem scanDirectory_ok {m : Lengths} {buf : Nat → Byte} (small : m.recordLength < bufSize)
    (fuel p : Nat) (inside : p < m.recordLength) (enough : m.recordLength < p + fuel) :
    scanDirectory m buf fuel p = .ok none ∧ (∀ d, ¬ Directory m buf p d) ∨
    ∃ d, scanDirectory m buf fuel p = .ok (some d) ∧ Directory m buf p d ∧
      ∀ d', Directory m buf p d' → d' = d := by
  induction fuel generalizing p with
  | zero => omega
  | succ fuel ih =>
    have entry : m.entry = 3 + m.lengthDataEntry + m.lengthStarting := rfl
    rw [scanDirectory, byteAt_ok (by omega)]
    simp only [Except.bind]
    split
    · rename_i separator
      refine .inr ⟨p, rfl, .separator inside separator, fun d' directory => ?_⟩
      cases directory with
      | separator => rfl
      | broken => rfl
      | entry _ other => exact absurd separator other
    rename_i noSeparator
    split
    · rename_i behind
      refine .inl ⟨rfl, fun d directory => ?_⟩
      cases directory with
      | separator _ separator => exact noSeparator separator
      | broken within => omega
      | entry within => omega
    rename_i within
    obtain ⟨digits, looked, all⟩ := @allDigits_ok buf (p + 3)
      (m.lengthDataEntry + m.lengthStarting) (by omega)
    rw [looked]
    have last : p + 3 + (m.lengthDataEntry + m.lengthStarting) = p + m.entry := by omega
    rw [last] at all
    cases digits with
    | true =>
      have digit := all.mp rfl
      have step : ∀ d, Directory m buf p d ↔ Directory m buf (p + m.entry) d := by
        intro d
        constructor
        · intro directory
          cases directory with
          | separator _ separator => exact absurd separator noSeparator
          | broken _ _ from' to' other =>
            rw [digit _ from' to'] at other
            cases other
          | entry _ _ _ rest => exact rest
        · exact .entry (by omega) noSeparator digit
      simp only [step]
      exact ih (p + m.entry) (by omega) (by omega)
    | false =>
      have some : ∃ i, p + 3 ≤ i ∧ i < p + m.entry ∧ isDigit (buf i) = false := by
        by_contra none
        push Not at none
        refine Bool.false_ne_true (all.mpr fun x from' to' => ?_)
        exact Bool.eq_true_of_not_eq_false (none x from' to')
      obtain ⟨i, from', to', other⟩ := some
      refine .inr ⟨p, rfl, .broken (by omega) noSeparator from' to' other, fun d' directory => ?_⟩
      cases directory with
      | separator => rfl
      | broken => rfl
      | entry _ _ digit _ =>
        rw [digit i from' to'] at other
        cases other

theorem Directory.le {d : Nat} (directory : Directory m buf p d) : p ≤ d ∧ d < m.recordLength := by
  induction directory with
  | separator inside => exact ⟨le_rfl, inside⟩
  | broken within => exact ⟨le_rfl, by omega⟩
  | entry _ _ _ _ ih => exact ⟨by omega, ih.2⟩

variable {atoiN : List Byte → Nat}

theorem reached_iff {d q : Nat}
    (more : p ≠ d) : Reached atoiN m buf d p q ↔
      q = p ∨ ((entryAt atoiN m buf p).good m = true ∧ Reached atoiN m buf d (p + m.entry) q) := by
  constructor
  · intro reached
    cases reached with
    | here => exact .inl rfl
    | next _ good rest => exact .inr ⟨good, rest⟩
  · rintro (rfl | ⟨good, rest⟩)
    · exact .here more
    · exact .next more good rest

/-- The fields of a directory are read if they lie in the record. -/
theorem readFields_settles {atoiN : List Byte → Nat} {marcXml : Bool} {m : Lengths}
    {buf : Nat → Byte} {p d : Nat} (small : m.recordLength < bufSize)
    (directory : Directory m buf p d) (fuel : Nat) (enough : m.recordLength < p + fuel) :
    Settles (readFields atoiN marcXml m buf d fuel p) (FieldsInside atoiN marcXml m buf d p) := by
  have ended {p : Nat} {fuel : Nat} (pos : 0 < fuel) :
      Settles (readFields atoiN marcXml m buf p fuel p) (FieldsInside atoiN marcXml m buf p p) := by
    cases fuel with
    | zero => exact absurd pos (Nat.lt_irrefl 0)
    | succ fuel =>
      rw [readFields, if_pos rfl]
      intro q reached
      cases reached with
      | here more => exact absurd rfl more
      | next more => exact absurd rfl more
  induction directory generalizing fuel with
  | separator inside => exact ended (by omega)
  | broken within => exact ended (by omega)
  | @entry p d within noSeparator digits rest ih =>
    have entry : m.entry = 3 + m.lengthDataEntry + m.lengthStarting := rfl
    have more : p ≠ d := by
      have := rest.le
      omega
    cases fuel with
    | zero => omega
    | succ fuel =>
      rw [readFields, if_neg more]
      refine .bind_ok (copy_ok (.inr (Nat.le_of_lt within))) ?_
      by_cases good : (entryAt atoiN m buf p).good m = true
      · rw [if_pos good]
        have ends : 0 < (entryAt atoiN m buf p).dataLength ∧
            (entryAt atoiN m buf p).endOffset < m.recordLength := by
          simpa [Entry.good] using good
        have starts : (entryAt atoiN m buf p).endOffset =
            (entryAt atoiN m buf p).start + (entryAt atoiN m buf p).dataLength - 1 := rfl
        refine (fieldNodes_settles ends.2 (by omega) small).bind (fun nodes _ own => ?_)
          fun all => all p (.here more) good
        refine ((ih fuel (by omega)).map _).iff ⟨fun all q reached good' => ?_,
          fun all q reached good' => ?_⟩
        · rcases (reached_iff more).mp reached with rfl | ⟨-, later⟩
          · exact own
          · exact all q later good'
        · exact all q ((reached_iff more).mpr (.inr ⟨good, reached⟩)) good'
      · rw [if_neg good]
        intro q reached good'
        rcases (reached_iff more).mp reached with rfl | ⟨good'', -⟩
        · exact absurd good' good
        · exact absurd good'' good

/-- What the code relies on of `atoi_n`: a number has no more digits than characters. -/
def Bounded (atoiN : List Byte → Nat) : Prop := ∀ s, atoiN s < 10 ^ s.length

theorem skipBad_length {buf stream first rest : List Byte} (nonempty : buf ≠ [])
    (skipped : skipBad buf stream = some (first, rest)) : first.length = buf.length := by
  induction stream generalizing buf with
  | nil =>
    rw [skipBad] at skipped
    split at skipped
    · cases skipped
      rfl
    · cases skipped
  | cons c stream ih =>
    rw [skipBad] at skipped
    split at skipped
    · cases skipped
      rfl
    · rw [ih (append_ne_nil_of_right_ne_nil _ (cons_ne_nil _ _)) skipped,
        length_append, length_tail, length_singleton]
      exact Nat.sub_add_cancel (length_pos_iff.mpr nonempty)

theorem skipToSeparator_ok (contents stream : List Byte) (small : contents.length < bufSize) :
    ∃ res, skipToSeparator contents stream = .ok res ∧ contents.length ≤ res.1.length ∧
      res.1.length < bufSize := by
  induction stream generalizing contents with
  | nil => exact ⟨_, rfl, le_rfl, small⟩
  | cons c stream ih =>
    rw [skipToSeparator]
    split
    · exact ⟨_, rfl, le_rfl, small⟩
    split
    · exact ⟨_, rfl, le_rfl, small⟩
    rename_i room
    have size : bufSize = 100000 := rfl
    rw [if_pos (by omega)]
    obtain ⟨res, ok, le, less⟩ := ih (contents ++ [c]) (by
      rw [length_append, length_singleton]
      omega)
    rw [length_append] at le
    exact ⟨res, ok, by omega, less⟩

theorem loadRecord_ok (bounded : Bounded atoiN) (garbage : Nat → Byte)
    (stream : List Byte) : ∃ loaded, loadRecord atoiN garbage stream = .ok loaded ∧
      ∀ r ∈ loaded, 24 < r.recordLength ∧ r.recordLength < bufSize := by
  have absent : ∃ loaded, (Except.ok none : Except Stop (Option Loaded)) = .ok loaded ∧
      ∀ r ∈ loaded, 24 < r.recordLength ∧ r.recordLength < bufSize := by
    refine ⟨none, rfl, fun r mem => ?_⟩
    cases mem
  rw [loadRecord]
  split
  · exact absent
  rename_i five
  split
  · exact absent
  rename_i first rest skipped
  split
  · exact absent
  rename_i long
  have length : (stream.take 5).length = 5 := by
    rw [length_take]
    omega
  have first_length : first.length = 5 :=
    (skipBad_length (ne_nil_of_length_eq_add_one length) skipped).trans length
  have less : atoiN first < 10 ^ 5 := first_length ▸ bounded first
  have size : bufSize = 100000 := rfl
  rw [readf, if_pos (by omega)]
  simp only [Except.bind]
  split
  · exact absent
  rename_i whole
  have read : (first ++ rest.take (atoiN first - 5)).length ≤ atoiN first := by
    rw [length_append, length_take]
    omega
  obtain ⟨res, ok, le, inside⟩ := skipToSeparator_ok (first ++ rest.take (atoiN first - 5))
    (rest.drop (atoiN first - 5)) (by omega)
  rw [ok]
  simp only
  rw [readf, if_pos (by omega)]
  refine ⟨_, rfl, ?_⟩
  rintro r ⟨⟩
  exact ⟨by dsimp only; omega, inside⟩

/-- What a stream and the forced lengths must be like: in the record, every good field of the
directory in front of the first bad one lies in the record with its indicators and identifiers. -/
def RecordInside (atoiN : List Byte → Nat) (forceIndicator forceIdentifier : Option Nat)
    (marcXml : Bool) (garbage : Nat → Byte) (stream : List Byte) : Prop :=
  ∀ r, loadRecord atoiN garbage stream = .ok (some r) →
    ∀ d, Directory (r.lengths atoiN forceIndicator forceIdentifier) r.buf 24 d →
      FieldsInside atoiN marcXml (r.lengths atoiN forceIndicator forceIdentifier) r.buf d 24

theorem grsReadIso2709_settles (bounded : Bounded atoiN)
    (forceIndicator forceIdentifier : Option Nat) (marcXml : Bool) (type : List Byte)
    (garbage : Nat → Byte) (stream : List Byte) :
    Settles (grsReadIso2709 atoiN forceIndicator forceIdentifier marcXml type garbage stream)
      (RecordInside atoiN forceIndicator forceIdentifier marcXml garbage stream) := by
  obtain ⟨loaded, ok, all⟩ := loadRecord_ok bounded garbage stream
  rw [grsReadIso2709]
  refine .bind_ok ok ?_
  cases loaded with
  | none =>
    intro r other
    rw [ok] at other
    cases other
  | some r =>
    obtain ⟨long, small⟩ := all r rfl
    have same : (r.lengths atoiN forceIndicator forceIdentifier).recordLength = r.recordLength :=
      rfl
    have cond : RecordInside atoiN forceIndicator forceIdentifier marcXml garbage stream ↔
        ∀ d, Directory (r.lengths atoiN forceIndicator forceIdentifier) r.buf 24 d →
          FieldsInside atoiN marcXml
            (r.lengths atoiN forceIndicator forceIdentifier) r.buf d 24 := by
      constructor
      · exact fun inside => inside r ok
      · intro inside r' ok'
        obtain rfl : r = r' := Option.some.inj (Except.ok.inj (ok.symm.trans ok'))
        exact inside
    refine .iff ?_ cond.symm
    dsimp only
    generalize r.lengths atoiN forceIndicator forceIdentifier = m at same ⊢
    refine .bind_ok (copy_ok (.inr (by omega))) ?_
    rcases @scanDirectory_ok m r.buf (by omega) (r.recordLength + 1) 24 (by omega)
      (by omega) with ⟨found, none⟩ | ⟨d, found, directory, only⟩
    · refine .bind_ok found ?_
      exact fun d directory => absurd directory (none d)
    · refine .bind_ok found ?_
      refine ((@readFields_settles atoiN marcXml _ _ _ _ (by omega) directory
        (r.recordLength + 1) (by omega)).map _).iff ⟨fun inside d' directory' => ?_, fun inside =>
        inside d directory⟩
      rw [only d' directory']
      exact inside

/-- The reader always ends, and it returns without an access from outside of the buffer or a copy
from behind the record if and only if the fields lie in the record with indicators and
identifiers. -/
theorem grsReadIso2709_bounds_iff {atoiN : List Byte → Nat} (bounded : Bounded atoiN)
    (forceIndicator forceIdentifier : Option Nat) (marcXml : Bool) (type : List Byte)
    (garbage : Nat → Byte) (stream : List Byte) :
    grsReadIso2709 atoiN forceIndicator forceIdentifier marcXml type garbage stream ≠ .error .fuel ∧
    ((∃ res, grsReadIso2709 atoiN forceIndicator forceIdentifier marcXml type garbage stream =
        .ok res) ↔
      RecordInside atoiN forceIndicator forceIdentifier marcXml garbage stream) := by
  have settles :=
    grsReadIso2709_settles bounded forceIndicator forceIdentifier marcXml type garbage stream
  cases run : grsReadIso2709 atoiN forceIndicator forceIdentifier marcXml type garbage stream with
  | ok res =>
    rw [run] at settles
    refine ⟨?_, iff_of_true ⟨res, rfl⟩ settles⟩
    intro same
    cases same
  | error stop =>
    rw [run] at settles
    refine ⟨fun same => settles.1 (Except.error.inj same), iff_of_false ?_ settles.2⟩
    rintro ⟨res, same⟩
    cases same

/-- A number of digits, with other characters left out -/
def digitsValue (s : List Byte) : Nat :=
  s.foldl (fun val c => if isDigit c then val * 10 + (c - 48) else val) 0

theorem bounded_digitsValue : Bounded digitsValue := by
  intro s
  induction s using List.reverseRecOn with
  | nil => exact Nat.one_pos
  | append_singleton s c ih =>
    rw [digitsValue, foldl_append, foldl_cons, foldl_nil, length_append,
      length_singleton, Nat.pow_succ]
    change (if isDigit c then digitsValue s * 10 + (c - 48) else digitsValue s) < _
    split
    · rename_i digit
      have small : c ≤ 57 := by
        simp only [isDigit, Bool.and_eq_true, decide_eq_true_eq] at digit
        exact digit.2
      have digit : c - 48 ≤ 9 := Nat.sub_le_iff_le_add.mpr small
      calc
        digitsValue s * 10 + (c - 48) ≤ digitsValue s * 10 + 9 := Nat.add_le_add_left digit _
        _ < 10 ^ s.length * 10 := by omega
    · omega

/-- A record with one field, whose data are `data` -/
def shortRecord (data : List Byte) : List Byte :=
  asBytes "00038nam  2200037   4500" ++ asBytes "245000100000" ++ fieldSeparator :: data

theorem grsReadIso2709_bounds_iff_short :
    grsReadIso2709 digitsValue none none true [] (fun _ => 0) (shortRecord [29]) ≠ .error .fuel ∧
    ((∃ res, grsReadIso2709 digitsValue none none true [] (fun _ => 0)
      (shortRecord [29]) = .ok res) ↔
      RecordInside digitsValue none none true (fun _ => 0) (shortRecord [29])) :=
  grsReadIso2709_bounds_iff bounded_digitsValue none none true [] (fun _ => 0) (shortRecord [29])

/-- The last field of a record is its record separator alone: its two indicators are that and what
the buffer has behind the record. -/
theorem not_grsReadIso2709_bounds :
    ¬ ∀ atoiN, Bounded atoiN → ∀ (forceIndicator forceIdentifier : Option Nat) (marcXml : Bool)
      (type : List Byte) (garbage : Nat → Byte) (stream : List Byte),
      ∃ res, grsReadIso2709 atoiN forceIndicator forceIdentifier marcXml type garbage stream =
        .ok res := by
  intro bounds
  obtain ⟨res, ok⟩ := bounds digitsValue bounded_digitsValue none none true [] (fun _ => 0)
    (shortRecord [29])
  have behind : grsReadIso2709 digitsValue none none true [] (fun _ => 0) (shortRecord [29]) =
      .error .behind := by
    rfl
  rw [behind] at ok
  cases ok

end Zebra.Marc
