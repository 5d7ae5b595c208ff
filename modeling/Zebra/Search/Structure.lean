import Mathlib.Data.Multiset.Range
import Zebra.Rset.MultiAndSpec
import Zebra.Rset.MultiOr
import Zebra.Rset.Not

/-!
# Structured queries

`rpn_search_structure`: the sets of the operands of an operator are collected in a list, and where
an operand has the same operator, and it is `and` or `or`, its operands are taken for those of the
whole. Each set that is made belongs to one list or one set, so that it can be released once.
-/

namespace Zebra.Rpn

open List Rset Function

/-- `Z_Operator`; of a proximity operator the unit, `none` where it is not a known one. -/
inductive Operator where
  | and
  | or
  | andNot
  | prox (known : Option Nat)
  deriving DecidableEq

inductive Structure (Apt Name : Type) where
  | complex (roperator : Operator) (s1 s2 : Structure Apt Name)
  | apt (attributesPlusTerm : Apt)
  | resultSetId (name : Name)
  /-- Any other operand. -/
  | otherOperand
  /-- Any other structure. -/
  | other

/-- Which function has made a set of sets. -/
inductive Kind where
  | and
  | or
  | not
  | prox
  | between

/-- `RSET`, a set with all sets that it owns. -/
inductive RSET (Key Term Name : Type) where
  /-- A set of keys that has been made for a term or a group. -/
  | leaf (id : Nat) (keys : Multiset (Key × Term))
  | ref (name : Name) (keys : Multiset (Key × Term))
  | multi (id : Nat) (kind : Kind) (children : List (RSET Key Term Name))

/-- The condition that `zebra_setError` sets, with what it adds. -/
inductive Error (Apt Name : Type) where
  | unsuppProxUnitCode (unit : Option Nat)
  | specifiedResultSetDoesNotExist (name : Name)
  | unsuppSearch
  /-- What `rpn_search_APT` sets. -/
  | searchApt (attributesPlusTerm : Apt)

/-- The sets that have been made, and those of them that have been released. -/
structure State (Apt Name : Type) where
  /-- How many sets have been made; they are numbered from 0 on. -/
  made : Nat
  /-- How often each has been released. -/
  released : Multiset Nat
  refcount : Name → Nat
  error : Option (Error Apt Name)

structure Register (Key Term Apt Name : Type) where
  searchApt : Apt → Option (Multiset (Key × Term))
  resultSetRef : Name → Option (Multiset (Key × Term))
  /-- `search_group`, for the begin or the end of a unit. -/
  searchGroup : Nat → Bool → Option (Multiset (Key × Term))

variable {Key Term Apt Name : Type} [DecidableEq Name]

mutual

/-- `rset_delete`: a named set has its reference count lowered; any other has none but its
owner's. -/
def rsetDelete (st : State Apt Name) : RSET Key Term Name → State Apt Name
  | .leaf id _ => { st with released := id ::ₘ st.released }
  | .ref name _ =>
    { st with refcount := Function.update st.refcount name (st.refcount name - 1) }
  | .multi id _ children =>
    let st := deleteAll st children
    { st with released := id ::ₘ st.released }

/-- `rset_delete` for one after another. -/
def deleteAll (st : State Apt Name) : List (RSET Key Term Name) → State Apt Name
  | [] => st
  | rset :: rsets => deleteAll (rsetDelete st rset) rsets

end

/-- `rset_create_and` and the like: a set that owns others. -/
def create (st : State Apt Name) (kind : Kind) (children : List (RSET Key Term Name)) :
    RSET Key Term Name × State Apt Name :=
  (.multi st.made kind children, { st with made := st.made + 1 })

def createLeaf (st : State Apt Name) :
    Option (Multiset (Key × Term)) → List (RSET Key Term Name) × State Apt Name
  | none => ([], st)
  | some keys => ([.leaf st.made keys], { st with made := st.made + 1 })

variable (reg : Register Key Term Apt Name)

/-- Whether the sets of a node are left to the node above. -/
def leaves (parent : Option Operator) (zop : Operator) : Bool :=
  match parent, zop with
  | some .and, .and => true
  | some .or, .or => true
  | _, _ => false

/-- `switch (zop->which)`: the set made of those of the operands, or an error. -/
def combine (zop : Operator) (sets : List (RSET Key Term Name)) (st : State Apt Name) :
    Option (RSET Key Term Name) × State Apt Name :=
  match zop with
  | .and => ((create st .and sets).1, (create st .and sets).2)
  | .or => ((create st .or sets).1, (create st .or sets).2)
  | .andNot => ((create st .not (sets.take 2)).1, (create st .not (sets.take 2)).2)
  | .prox none => (none, { st with error := some (.unsuppProxUnitCode none) })
  | .prox (some unit) =>
    -- `Z_ProxUnit_word`
    if unit = 2 then ((create st .prox sets).1, (create st .prox sets).2)
    else if 3 ≤ unit ∧ unit ≤ 10 ∧ sets.length = 2 then
      let (beginSet, st) := createLeaf st (reg.searchGroup unit true)
      let (endSet, st) := createLeaf st (reg.searchGroup unit false)
      if beginSet ≠ [] ∧ endSet ≠ [] then
        ((create st .between (beginSet ++ sets ++ endSet)).1,
          (create st .between (beginSet ++ sets ++ endSet)).2)
      else
        (none, { deleteAll (deleteAll st beginSet) endSet with
          error := some (.unsuppProxUnitCode unit) })
    else (none, { st with error := some (.unsuppProxUnitCode unit) })

/-- `rpn_search_structure`: whether it returns `ZEBRA_OK`, and the sets it hands to its caller. -/
def rpnSearchStructure :
    Structure Apt Name → Option Operator → State Apt Name →
      Bool × List (RSET Key Term Name) × State Apt Name
  | .complex zop s1 s2, parent, st =>
    let (ok, setsL, st) := rpnSearchStructure s1 (some zop) st
    if ok then
      let (ok, setsR, st) := rpnSearchStructure s2 (some zop) st
      if ok then
        if leaves parent zop then (true, setsL ++ setsR, st)
        else
          match combine reg zop (setsL ++ setsR) st with
          | (some rset, st) => (true, [rset], st)
          | (none, st) => (false, setsL ++ setsR, st)
      else (false, [], deleteAll (deleteAll st setsL) setsR)
    else (false, [], deleteAll st setsL)
  | .apt zapt, _, st =>
    match reg.searchApt zapt with
    | some keys => (true, [.leaf st.made keys], { st with made := st.made + 1 })
    | none => (false, [], { st with error := some (.searchApt zapt) })
  | .resultSetId name, _, st =>
    match reg.resultSetRef name with
    | some keys =>
      (true, [.ref name keys],
        { st with refcount := Function.update st.refcount name (st.refcount name + 1) })
    | none => (false, [], { st with error := some (.specifiedResultSetDoesNotExist name) })
  | .otherOperand, _, st => (false, [], { st with error := some .unsuppSearch })
  | .other, _, st => (false, [], { st with error := some .unsuppSearch })

def rpnSearchTop (zs : Structure Apt Name) (st : State Apt Name) :
    Option (RSET Key Term Name) × State Apt Name :=
  match rpnSearchStructure reg zs none st with
  | (true, sets, st) => (sets.head?, st)
  | (false, sets, st) => (none, deleteAll st sets)

mutual

def owned : RSET Key Term Name → Multiset Nat
  | .leaf id _ => {id}
  | .ref _ _ => 0
  | .multi id _ children => id ::ₘ ownedAll children

def ownedAll : List (RSET Key Term Name) → Multiset Nat
  | [] => 0
  | rset :: rsets => owned rset + ownedAll rsets

end

mutual

def refs (name : Name) : RSET Key Term Name → Nat
  | .leaf _ _ => 0
  | .ref other _ => if other = name then 1 else 0
  | .multi _ _ children => refsAll name children

def refsAll (name : Name) : List (RSET Key Term Name) → Nat
  | [] => 0
  | rset :: rsets => refs name rset + refsAll name rsets

end

omit [DecidableEq Name] in
theorem ownedAll_append (l r : List (RSET Key Term Name)) :
    ownedAll (l ++ r) = ownedAll l + ownedAll r := by
  induction l with
  | nil => exact (Multiset.zero_add _).symm
  | cons rset l induction => rw [cons_append, ownedAll, induction, ownedAll, add_assoc]

theorem refsAll_append (name : Name) (l r : List (RSET Key Term Name)) :
    refsAll name (l ++ r) = refsAll name l + refsAll name r := by
  induction l with
  | nil => exact (Nat.zero_add _).symm
  | cons rset l induction => rw [cons_append, refsAll, induction, refsAll, Nat.add_assoc]

mutual

/-- Releasing a set releases what it owns, and lowers the counts of the named sets in it. -/
theorem rsetDelete_spec (st : State Apt Name) : (rset : RSET Key Term Name) →
    (rsetDelete st rset).made = st.made ∧
      (rsetDelete st rset).released = st.released + owned rset ∧
      ∀ name, (rsetDelete st rset).refcount name = st.refcount name - refs name rset
  | .leaf id _ => by
      refine ⟨rfl, ?_, fun name => rfl⟩
      rw [owned, add_comm, Multiset.singleton_add]
      rfl
  | .ref other _ => by
      refine ⟨rfl, (add_zero _).symm, fun name => ?_⟩
      rw [rsetDelete, refs]
      dsimp only
      rcases eq_or_ne name other with rfl | ne
      · rw [update_self, if_pos rfl]
      · rw [update_of_ne ne, if_neg ne.symm, Nat.sub_zero]
  | .multi id _ children => by
      obtain ⟨made, released, refcount⟩ := deleteAll_spec st children
      refine ⟨made, ?_, refcount⟩
      rw [owned, rsetDelete, Multiset.add_cons, ← released]

theorem deleteAll_spec (st : State Apt Name) : (rsets : List (RSET Key Term Name)) →
    (deleteAll st rsets).made = st.made ∧
      (deleteAll st rsets).released = st.released + ownedAll rsets ∧
      ∀ name, (deleteAll st rsets).refcount name = st.refcount name - refsAll name rsets
  | [] => ⟨rfl, (add_zero _).symm, fun _ => rfl⟩
  | rset :: rsets => by
      obtain ⟨made, released, refcount⟩ := rsetDelete_spec st rset
      obtain ⟨made', released', refcount'⟩ := deleteAll_spec (rsetDelete st rset) rsets
      refine ⟨made'.trans made, ?_, fun name => ?_⟩
      · rw [deleteAll, released', released, ownedAll, add_assoc]
      · rw [deleteAll, refcount', refcount, refsAll, Nat.sub_sub]

end

/-- From one state to another the sets have been made that are in the list and in those released. -/
structure Accounts (st : State Apt Name) (sets : List (RSET Key Term Name))
    (st' : State Apt Name) : Prop where
  made : st.made ≤ st'.made
  released : st'.released + ownedAll sets + Multiset.range st.made =
    st.released + Multiset.range st'.made
  refcount : ∀ name, st'.refcount name = st.refcount name + refsAll name sets

theorem Accounts.refl (st : State Apt Name) :
    Accounts st ([] : List (RSET Key Term Name)) st :=
  ⟨le_rfl, congrArg (· + _) (add_zero _), fun _ => rfl⟩

variable {sets : List (RSET Key Term Name)} {st st' : State Apt Name}

theorem Accounts.withError
    (accounts : Accounts st sets st') (error : Option (Error Apt Name)) :
    Accounts st sets { st' with error } :=
  ⟨accounts.made, accounts.released, accounts.refcount⟩

variable {l r : List (RSET Key Term Name)}

theorem Accounts.append {st st' st'' : State Apt Name}
    (first : Accounts st l st') (second : Accounts st' r st'') : Accounts st (l ++ r) st'' where
  made := first.made.trans second.made
  released := by
    have apart : st''.released + ownedAll (l ++ r) + Multiset.range st.made +
        Multiset.range st'.made = st.released + Multiset.range st''.made +
        Multiset.range st'.made := by
      calc
        st''.released + ownedAll (l ++ r) + Multiset.range st.made + Multiset.range st'.made =
            (st''.released + ownedAll r + Multiset.range st'.made) +
              (ownedAll l + Multiset.range st.made) := by
          rw [ownedAll_append]
          ac_rfl
        _ = (st'.released + ownedAll l + Multiset.range st.made) + Multiset.range st''.made := by
          rw [second.released]
          ac_rfl
        _ = st.released + Multiset.range st''.made + Multiset.range st'.made := by
          rw [first.released]
          ac_rfl
    exact add_right_cancel apart
  refcount name := by
    rw [second.refcount, first.refcount, refsAll_append, Nat.add_assoc]

theorem Accounts.delete
    (accounts : Accounts st sets st') :
    Accounts st ([] : List (RSET Key Term Name)) (deleteAll st' sets) := by
  obtain ⟨made, released, refcount⟩ := deleteAll_spec st' sets
  refine ⟨made ▸ accounts.made, ?_, fun name => ?_⟩
  · rw [released, made, ownedAll, add_zero]
    exact accounts.released
  · rw [refcount, accounts.refcount, Nat.add_sub_cancel]
    rfl

theorem deleteAll_append (st : State Apt Name) (l r : List (RSET Key Term Name)) :
    deleteAll st (l ++ r) = deleteAll (deleteAll st l) r := by
  induction l generalizing st with
  | nil => rfl
  | cons rset l induction => exact induction (rsetDelete st rset)

theorem Accounts.create
    (accounts : Accounts st sets st') (kind : Kind) :
    Accounts st [(Rpn.create st' kind sets).1] (Rpn.create st' kind sets).2 where
  made := accounts.made.trans (Nat.le_succ _)
  released := by
    rw [Rpn.create]
    dsimp only
    rw [ownedAll, owned, ownedAll, add_zero, Multiset.range_succ, Multiset.add_cons,
      Multiset.cons_add, Multiset.add_cons, accounts.released]
  refcount name := by
    rw [Rpn.create]
    dsimp only
    rw [refsAll, refs, refsAll, Nat.add_zero]
    exact accounts.refcount name

theorem accounts_leaf (st : State Apt Name) (keys : Multiset (Key × Term)) :
    Accounts st ([.leaf st.made keys] : List (RSET Key Term Name))
      { st with made := st.made + 1 } where
  made := Nat.le_succ _
  released := by
    dsimp only
    rw [ownedAll, owned, ownedAll, add_zero, Multiset.range_succ, Multiset.add_cons, add_assoc,
      Multiset.singleton_add, Multiset.add_cons]
  refcount _ := rfl

theorem accounts_createLeaf (st : State Apt Name) (keys : Option (Multiset (Key × Term))) :
    Accounts st (createLeaf st keys : List (RSET Key Term Name) × _).1
      (createLeaf st keys : List (RSET Key Term Name) × _).2 := by
  cases keys with
  | none => exact Accounts.refl st
  | some keys => exact accounts_leaf st keys

theorem accounts_ref (st : State Apt Name) (name : Name) (keys : Multiset (Key × Term)) :
    Accounts st ([.ref name keys] : List (RSET Key Term Name))
      { st with refcount := Function.update st.refcount name (st.refcount name + 1) } where
  made := le_rfl
  released := by
    rw [ownedAll, owned, ownedAll, add_zero, add_zero]
  refcount other := by
    dsimp only
    rw [refsAll, refs, refsAll, Nat.add_zero]
    rcases eq_or_ne other name with rfl | ne
    · rw [update_self, if_pos rfl]
    · rw [update_of_ne ne, if_neg ne.symm, Nat.add_zero]

theorem Accounts.perm {sets sets' : List (RSET Key Term Name)}
    (accounts : Accounts st sets st') (owns : ownedAll sets' = ownedAll sets)
    (uses : ∀ name, refsAll name sets' = refsAll name sets) : Accounts st sets' st' where
  made := accounts.made
  released := owns ▸ accounts.released
  refcount name := (accounts.refcount name).trans (congrArg _ (uses name).symm)

omit [DecidableEq Name] in
theorem createLeaf_released (st : State Apt Name) (keys : Option (Multiset (Key × Term))) :
    (createLeaf st keys : List (RSET Key Term Name) × _).2.released = st.released := by
  cases keys <;> rfl

/-- A set is made of the sets of the operands, or they are left as they are. -/
theorem combine_accounts {zop : Operator} (accounts : Accounts st sets st')
    (two : zop = .andNot → sets.length = 2) :
    (∀ rset, (combine reg zop sets st').1 = some rset →
      Accounts st [rset] (combine reg zop sets st').2 ∧
        (combine reg zop sets st').2.released = st'.released) ∧
      ((combine reg zop sets st').1 = none → Accounts st sets (combine reg zop sets st').2) := by
  unfold combine
  split
  case h_1 => exact ⟨fun rset eq => by cases eq; exact ⟨accounts.create .and, rfl⟩, nofun⟩
  case h_2 => exact ⟨fun rset eq => by cases eq; exact ⟨accounts.create .or, rfl⟩, nofun⟩
  case h_3 =>
    have all : sets.take 2 = sets := take_of_length_le (two rfl).le
    rw [all]
    exact ⟨fun rset eq => by cases eq; exact ⟨accounts.create .not, rfl⟩, nofun⟩
  case h_4 => exact ⟨nofun, fun _ => accounts.withError _⟩
  case h_5 unit =>
    split
    case isTrue => exact ⟨fun rset eq => by cases eq; exact ⟨accounts.create .prox, rfl⟩, nofun⟩
    case isFalse =>
      split
      case isFalse => exact ⟨nofun, fun _ => accounts.withError _⟩
      case isTrue =>
        dsimp only
        have first := accounts_createLeaf st' (reg.searchGroup unit true)
        have same := createLeaf_released st' (reg.searchGroup unit true)
        generalize (createLeaf st' (reg.searchGroup unit true) : List (RSET Key Term Name) × _) =
          begun at *
        have second := accounts_createLeaf begun.2
          (reg.searchGroup unit false)
        have same' := createLeaf_released begun.2
          (reg.searchGroup unit false)
        generalize (createLeaf begun.2 (reg.searchGroup unit false) :
          List (RSET Key Term Name) × _) = ended at *
        split
        case isTrue =>
          have four : Accounts st (begun.1 ++ sets ++ ended.1) ended.2 := by
            apply ((accounts.append first).append second).perm
            · rw [ownedAll_append, ownedAll_append, ownedAll_append, ownedAll_append,
                add_comm (ownedAll begun.1)]
            · intro name
              rw [refsAll_append, refsAll_append, refsAll_append, refsAll_append,
                Nat.add_comm (refsAll name begun.1)]
          refine ⟨fun rset eq => ?_, nofun⟩
          cases eq
          exact ⟨four.create .between, same'.trans same⟩
        case isFalse =>
          refine ⟨nofun, fun _ => ?_⟩
          have back := (first.append second).delete
          rw [deleteAll_append] at back
          have whole := (accounts.append back).withError (some (.unsuppProxUnitCode (some unit)))
          rwa [append_nil] at whole

/-- What is handed to a caller: a list of one set, but where the caller's operator is `and` or
`or`. -/
def Shape (parent : Option Operator) (sets : List (RSET Key Term Name)) : Prop :=
  sets ≠ [] ∧ (parent ≠ some .and → parent ≠ some .or → sets.length = 1)

omit [DecidableEq Name] in
theorem shape_one (parent : Option Operator) (rset : RSET Key Term Name) : Shape parent [rset] :=
  ⟨cons_ne_nil _ _, fun _ _ => rfl⟩

/-- Whatever is searched for, all sets that are made are handed to the caller or released. -/
theorem rpnSearchStructure_accounts (zs : Structure Apt Name) (parent : Option Operator)
    (st : State Apt Name) :
    Accounts st (rpnSearchStructure reg zs parent st).2.1
      (rpnSearchStructure reg zs parent st).2.2 ∧
      ((rpnSearchStructure reg zs parent st).1 = true →
        (rpnSearchStructure reg zs parent st).2.2.released = st.released ∧
          Shape parent (rpnSearchStructure reg zs parent st).2.1) := by
  induction zs generalizing parent st with
  | apt zapt =>
    rw [rpnSearchStructure]
    cases reg.searchApt zapt with
    | some keys => exact ⟨accounts_leaf st keys, fun _ => ⟨rfl, shape_one _ _⟩⟩
    | none => exact ⟨(Accounts.refl st).withError _, nofun⟩
  | resultSetId name =>
    rw [rpnSearchStructure]
    cases reg.resultSetRef name with
    | some keys => exact ⟨accounts_ref st name keys, fun _ => ⟨rfl, shape_one _ _⟩⟩
    | none => exact ⟨(Accounts.refl st).withError _, nofun⟩
  | otherOperand => exact ⟨(Accounts.refl st).withError _, nofun⟩
  | other => exact ⟨(Accounts.refl st).withError _, nofun⟩
  | complex zop s1 s2 left right =>
    obtain ⟨accountsL, doneL⟩ := left (some zop) st
    rw [rpnSearchStructure]
    generalize rpnSearchStructure reg s1 (some zop) st = outL at *
    obtain ⟨okL, setsL, stL⟩ := outL
    dsimp only at *
    obtain ⟨accountsR, doneR⟩ := right (some zop) stL
    generalize rpnSearchStructure reg s2 (some zop) stL = outR at *
    obtain ⟨okR, setsR, stR⟩ := outR
    dsimp only at *
    cases okL with
    | false => exact ⟨accountsL.delete, nofun⟩
    | true =>
      obtain ⟨sameL, shapeL⟩ := doneL rfl
      have both := accountsL.append accountsR
      cases okR with
      | false =>
        have back := both.delete
        rw [deleteAll_append] at back
        exact ⟨back, nofun⟩
      | true =>
        obtain ⟨sameR, shapeR⟩ := doneR rfl
        have same := sameR.trans sameL
        rw [if_pos rfl, if_pos rfl]
        cases left : leaves parent zop with
        | true =>
          refine ⟨both, fun _ => ⟨same, ?_⟩⟩
          refine ⟨fun nil => shapeL.1 (append_eq_nil_iff.mp nil).1, fun no_and no_or => ?_⟩
          unfold leaves at left
          split at left
          · exact absurd rfl no_and
          · exact absurd rfl no_or
          · cases left
        | false =>
          have two : zop = .andNot → (setsL ++ setsR).length = 2 := by
            rintro rfl
            rw [length_append, shapeL.2 nofun nofun, shapeR.2 nofun nofun]
          obtain ⟨some', none'⟩ := combine_accounts reg both two
          rw [if_neg Bool.false_ne_true]
          generalize combine reg zop (setsL ++ setsR) stR = out at *
          obtain ⟨made, st'⟩ := out
          cases made with
          | none => exact ⟨none' rfl, nofun⟩
          | some rset =>
            obtain ⟨accounts, unreleased⟩ := some' rset rfl
            exact ⟨accounts, fun _ => ⟨unreleased.trans same, shape_one _ _⟩⟩

section

variable (kc : KeyControl Key)
  (proximity : Kind → List (Multiset (Key × Term)) → Multiset (Key × Term))

/-- What a set stands for that owns others; that readers give it, where keys have no segments, is
`Kind.and_reads`, `Kind.or_reads` and `Kind.not_reads`. -/
def Kind.gives : Kind → List (Multiset (Key × Term)) → Multiset (Key × Term)
  | .and, ms => common kc ms
  | .or, ms => ms.sum
  | .not, [l, r] => without kc l r
  | .not, _ => 0
  | .prox, ms => proximity .prox ms
  | .between, ms => proximity .between ms

mutual

def gives : RSET Key Term Name → Multiset (Key × Term)
  | .leaf _ keys => keys
  | .ref _ keys => keys
  | .multi _ kind children => kind.gives kc proximity (givesAll children)

def givesAll : List (RSET Key Term Name) → List (Multiset (Key × Term))
  | [] => []
  | rset :: rsets => gives rset :: givesAll rsets

end

/-- All that is read of a set of others, from opening it to its end. -/
def Kind.readAll [Inhabited Key] [Inhabited Term] {σ : Type} (c : RsetControl σ Key Term)
    (order : List (HeapItem σ Key Term) → List (HeapItem σ Key Term))
    (any : Nat → OrItem σ Key Term) (hitsLimit : Nat) (kind : Kind) (sets : List (RSet σ))
    (fuel : Nat) : Option (List (Key × Term)) :=
  match kind, sets with
  | .and, sets => readAllAnd kc c order hitsLimit sets fuel
  | .or, sets => do
      let h ← rOpenOr kc c any fuel sets
      rsetReadAll kc (controlOr kc c none) fuel (rsetOpen ⟨hitsLimit, h⟩)
  | .not, [l, r] => do
      let p ← rOpenNot kc c c fuel l r
      rsetReadAll kc (controlNot kc c c) fuel (rsetOpen ⟨hitsLimit, p⟩)
  | _, _ => none

/-- Whatever type of set gives `ms`, one that is made of such sets gives `m`. -/
def Kind.Reads [Inhabited Key] [Inhabited Term] (kind : Kind) (ms : List (Multiset (Key × Term)))
    (m : Multiset (Key × Term)) : Prop :=
  ∀ (σ : Type) (c : RsetControl σ Key Term) (holds : σ → Multiset (Key × Term) → Prop)
    (order : List (HeapItem σ Key Term) → List (HeapItem σ Key Term))
      (any : Nat → OrItem σ Key Term)
    (hitsLimit : Nat) (sets : List (RSet σ)),
    Yields kc c holds → (∀ items, (order items).Perm items) →
    Forall₂ (fun set m => holds set.fOpen m) sets ms →
    ∃ keys, Settles (kind.readAll kc c order any hitsLimit sets) keys ∧
      (keys : Multiset (Key × Term)) = m ∧ keys.Pairwise fun a b => kc.cmp a.1 b.1 ≤ 0

mutual

/-- Each set in a tree that owns others is read as what it stands for. -/
def Reads [Inhabited Key] [Inhabited Term] : RSET Key Term Name → Prop
  | .leaf _ _ => True
  | .ref _ _ => True
  | .multi _ kind children =>
    kind.Reads kc (givesAll kc proximity children)
      (kind.gives kc proximity (givesAll kc proximity children)) ∧ ReadsAll children

def ReadsAll [Inhabited Key] [Inhabited Term] : List (RSET Key Term Name) → Prop
  | [] => True
  | rset :: rsets => Reads rset ∧ ReadsAll rsets

end

/-- A query of nothing but `and`, `or` and `and-not`. -/
def Structure.Boolean : Structure Apt Name → Prop
  | .complex zop s1 s2 => (∀ known, zop ≠ .prox known) ∧ s1.Boolean ∧ s2.Boolean
  | _ => True

def Structure.Found : Structure Apt Name → Prop
  | .complex _ s1 s2 => s1.Found ∧ s2.Found
  | .apt zapt => (reg.searchApt zapt).isSome
  | .resultSetId name => (reg.resultSetRef name).isSome
  | .otherOperand => False
  | .other => False

/-- Whether a query matches the record of a key, operator by operator. -/
def Structure.Matches (key : Key) : Structure Apt Name → Prop
  | .complex .and s1 s2 => s1.Matches key ∧ s2.Matches key
  | .complex .or s1 s2 => s1.Matches key ∨ s2.Matches key
  | .complex .andNot s1 s2 => s1.Matches key ∧ ¬ s2.Matches key
  | .complex (.prox _) _ _ => False
  | .apt zapt => ∃ keys, reg.searchApt zapt = some keys ∧ Occurs kc keys key
  | .resultSetId name => ∃ keys, reg.resultSetRef name = some keys ∧ Occurs kc keys key
  | .otherOperand => False
  | .other => False

end

variable {kc : KeyControl Key}
  {proximity : Kind → List (Multiset (Key × Term)) → Multiset (Key × Term)}

omit [DecidableEq Name] in
theorem givesAll_eq_map (rsets : List (RSET Key Term Name)) :
    givesAll kc proximity rsets = rsets.map (gives kc proximity) := by
  induction rsets with
  | nil => rfl
  | cons rset rsets induction => rw [givesAll, induction, map_cons]

theorem occurs_common {ms : List (Multiset (Key × Term))} (ne : ms ≠ []) {key : Key} :
    Occurs kc (common kc ms) key ↔ ∀ m ∈ ms, Occurs kc m key := by
  constructor
  · rintro ⟨item, mem, near⟩ m inList
    obtain ⟨_, every⟩ := Multiset.mem_filter.mp mem
    obtain ⟨other, inOther, near'⟩ := every m inList
    exact ⟨other, inOther, kc.near_trans near near'⟩
  · intro all
    obtain ⟨m, inList⟩ := exists_mem_of_ne_nil ms ne
    obtain ⟨item, mem, near⟩ := all m inList
    refine ⟨item, Multiset.mem_filter.mpr ⟨mem_sum.mpr ⟨m, inList, mem⟩, fun m' inList' => ?_⟩,
      near⟩
    obtain ⟨other, inOther, near'⟩ := all m' inList'
    exact ⟨other, inOther, kc.near_trans (kc.near_symm near) near'⟩

theorem occurs_sum {ms : List (Multiset (Key × Term))} {key : Key} :
    Occurs kc ms.sum key ↔ ∃ m ∈ ms, Occurs kc m key := by
  constructor
  · rintro ⟨item, mem, near⟩
    obtain ⟨m, inList, mem⟩ := mem_sum.mp mem
    exact ⟨m, inList, item, mem, near⟩
  · rintro ⟨m, inList, item, mem, near⟩
    exact ⟨item, mem_sum.mpr ⟨m, inList, mem⟩, near⟩

theorem occurs_without {l r : Multiset (Key × Term)} {key : Key} :
    Occurs kc (without kc l r) key ↔ Occurs kc l key ∧ ¬ Occurs kc r key := by
  constructor
  · rintro ⟨item, mem, near⟩
    obtain ⟨mem, out⟩ := Multiset.mem_filter.mp mem
    refine ⟨⟨item, mem, near⟩, fun ⟨other, there, near'⟩ => out ?_⟩
    exact ⟨other, there, kc.near_trans (kc.near_symm near) near'⟩
  · rintro ⟨⟨item, mem, near⟩, out⟩
    refine ⟨item, Multiset.mem_filter.mpr ⟨mem, fun ⟨other, there, near'⟩ => out ?_⟩, near⟩
    exact ⟨other, there, kc.near_trans near near'⟩

omit [DecidableEq Name] in
theorem readsAll_append [Inhabited Key] [Inhabited Term] {l r : List (RSET Key Term Name)}
    (readsL : ReadsAll kc proximity l) (readsR : ReadsAll kc proximity r) :
    ReadsAll kc proximity (l ++ r) := by
  induction l with
  | nil => exact readsR
  | cons rset l induction => exact ⟨readsL.1, induction readsL.2⟩

theorem Kind.and_reads [Inhabited Key] [Inhabited Term] (noSegments : kc.getSegment = none)
    {ms : List (Multiset (Key × Term))} (ne : ms ≠ []) : Kind.and.Reads kc ms (common kc ms) := by
  intro σ c holds order any hitsLimit sets yields sorts opened
  have some' : sets ≠ [] := by
    rintro rfl
    exact ne (forall₂_nil_left_iff.mp opened)
  exact readAllAnd_spec yields noSegments sorts hitsLimit some' opened

theorem Kind.or_reads [Inhabited Key] [Inhabited Term] (ms : List (Multiset (Key × Term))) :
    Kind.or.Reads kc ms ms.sum := by
  intro σ c holds order any hitsLimit sets yields _ opened
  obtain ⟨h, opens, ⟨keys, reads, keys_eq, sorted⟩, -⟩ := or_gives yields none any opened hitsLimit
  have own : retag (none : Option Term) = (id : Key × Term → Key × Term) := rfl
  rw [own, Multiset.map_id] at keys_eq
  exact ⟨keys, opens.bind reads, keys_eq, sorted⟩

theorem Kind.not_reads [Inhabited Key] [Inhabited Term] (l r : Multiset (Key × Term)) :
    Kind.not.Reads kc [l, r] (without kc l r) := by
  intro σ c holds order any hitsLimit sets yields _ opened
  cases opened with
  | cons openL rest =>
    cases rest with
    | cons openR rest =>
      cases rest
      obtain ⟨p, opens, ⟨keys, reads, keys_eq, sorted⟩, -⟩ :=
        not_gives yields yields openL openR hitsLimit
      exact ⟨keys, opens.bind reads, keys_eq, sorted⟩

/-- What is handed to a caller means what has been searched for, as the caller will take it. -/
def Means (kc : KeyControl Key)
    (proximity : Kind → List (Multiset (Key × Term)) → Multiset (Key × Term))
    (parent : Option Operator) (sets : List (RSET Key Term Name)) (records : Key → Prop) : Prop :=
  match parent with
  | some .and =>
    sets ≠ [] ∧ ∀ key, (∀ rset ∈ sets, Occurs kc (gives kc proximity rset) key) ↔ records key
  | some .or => ∀ key, (∃ rset ∈ sets, Occurs kc (gives kc proximity rset) key) ↔ records key
  | _ => ∃ rset, sets = [rset] ∧ ∀ key, Occurs kc (gives kc proximity rset) key ↔ records key

omit [DecidableEq Name] in
theorem means_one (parent : Option Operator) {rset : RSET Key Term Name} {records : Key → Prop}
    (means : ∀ key, Occurs kc (gives kc proximity rset) key ↔ records key) :
    Means kc proximity parent [rset] records := by
  unfold Means
  split
  · refine ⟨cons_ne_nil _ _, fun key => ?_⟩
    rw [forall_mem_singleton]
    exact means key
  · intro key
    rw [← means key]
    constructor
    · rintro ⟨other, mem, occurs⟩
      rwa [mem_singleton.mp mem] at occurs
    · exact fun occurs => ⟨rset, mem_singleton_self rset, occurs⟩
  · exact ⟨rset, rfl, means⟩

omit [DecidableEq Name] in
/-- Sets of `and` are taken together. -/
theorem Means.and {left right : Key → Prop}
    (meansL : Means kc proximity (some .and) l left)
    (meansR : Means kc proximity (some .and) r right) :
    Means kc proximity (some .and) (l ++ r) fun key => left key ∧ right key := by
  refine ⟨fun nil => meansL.1 (append_eq_nil_iff.mp nil).1, fun key => ?_⟩
  rw [forall_mem_append, meansL.2 key, meansR.2 key]

omit [DecidableEq Name] in
/-- Sets of `or` are taken together. -/
theorem Means.or {left right : Key → Prop}
    (meansL : Means kc proximity (some .or) l left)
    (meansR : Means kc proximity (some .or) r right) :
    Means kc proximity (some .or) (l ++ r) fun key => left key ∨ right key := by
  intro key
  change _ ↔ left key ∨ right key
  rw [← meansL key, ← meansR key]
  simp only [mem_append, or_and_right, exists_or]

/-- The set that is made of the sets of the operands means the operator applied to them. -/
theorem combine_means [Inhabited Key] [Inhabited Term] (noSegments : kc.getSegment = none)
    {zop : Operator} (boolean : ∀ known, zop ≠ .prox known) {left right : Key → Prop}
    (st : State Apt Name) (meansL : Means kc proximity (some zop) l left)
    (meansR : Means kc proximity (some zop) r right) (reads : ReadsAll kc proximity (l ++ r)) :
    ∃ rset, (combine reg zop (l ++ r) st).1 = some rset ∧ Reads kc proximity rset ∧
      ∀ key, Occurs kc (gives kc proximity rset) key ↔
        match zop with
        | .and => left key ∧ right key
        | .or => left key ∨ right key
        | .andNot => left key ∧ ¬ right key
        | .prox _ => False := by
  cases zop with
  | and =>
    obtain ⟨ne, both⟩ := meansL.and meansR
    have some' : (l ++ r).map (gives kc proximity) ≠ [] := fun nil => ne (map_eq_nil_iff.mp nil)
    have owns := Kind.and_reads noSegments some'
    rw [← givesAll_eq_map] at owns
    refine ⟨_, rfl, ⟨owns, reads⟩, fun key => ?_⟩
    rw [create, gives, Kind.gives, givesAll_eq_map, occurs_common some', forall_mem_map]
    exact both key
  | or =>
    refine ⟨_, rfl, ⟨Kind.or_reads _, reads⟩, fun key => ?_⟩
    have either := (meansL.or meansR) key
    rw [create, gives, Kind.gives, givesAll_eq_map, occurs_sum]
    simpa only [mem_map, exists_exists_and_eq_and] using either
  | andNot =>
    obtain ⟨setL, rfl, meansL⟩ := meansL
    obtain ⟨setR, rfl, meansR⟩ := meansR
    refine ⟨_, rfl, ⟨Kind.not_reads _ _, reads⟩, fun key => ?_⟩
    change Occurs kc (without kc (gives kc proximity setL) (gives kc proximity setR)) key ↔ _
    rw [occurs_without, meansL key, meansR key]
  | prox known => exact absurd rfl (boolean known)

/-- A query of nothing but `and`, `or` and `and-not` is found where its operands are, and then means
what its operators say. -/
theorem rpnSearchStructure_means [Inhabited Key] [Inhabited Term] (kc : KeyControl Key)
    (noSegments : kc.getSegment = none)
    (proximity : Kind → List (Multiset (Key × Term)) → Multiset (Key × Term))
    {zs : Structure Apt Name} (boolean : zs.Boolean)
    (parent : Option Operator) (st : State Apt Name) :
    ((rpnSearchStructure reg zs parent st).1 = true ↔ zs.Found reg) ∧
      ((rpnSearchStructure reg zs parent st).1 = true →
        Means kc proximity parent (rpnSearchStructure reg zs parent st).2.1
            (fun key => zs.Matches reg kc key) ∧
          ReadsAll kc proximity (rpnSearchStructure reg zs parent st).2.1) := by
  induction zs generalizing parent st with
  | apt zapt =>
    rw [rpnSearchStructure, Structure.Found]
    cases found : reg.searchApt zapt with
    | none => exact ⟨Iff.of_eq (by simp), nofun⟩
    | some keys =>
      refine ⟨Iff.of_eq (by simp), fun _ => ⟨means_one _ fun key => ?_, trivial, trivial⟩⟩
      rw [gives, Structure.Matches, found]
      exact ⟨fun occurs => ⟨keys, rfl, occurs⟩, fun ⟨_, eq, occurs⟩ => by cases eq; exact occurs⟩
  | resultSetId name =>
    rw [rpnSearchStructure, Structure.Found]
    cases found : reg.resultSetRef name with
    | none => exact ⟨Iff.of_eq (by simp), nofun⟩
    | some keys =>
      refine ⟨Iff.of_eq (by simp), fun _ => ⟨means_one _ fun key => ?_, trivial, trivial⟩⟩
      rw [gives, Structure.Matches, found]
      exact ⟨fun occurs => ⟨keys, rfl, occurs⟩, fun ⟨_, eq, occurs⟩ => by cases eq; exact occurs⟩
  | otherOperand => exact ⟨⟨nofun, False.elim⟩, nofun⟩
  | other => exact ⟨⟨nofun, False.elim⟩, nofun⟩
  | complex zop s1 s2 left right =>
    obtain ⟨no_prox, booleanL, booleanR⟩ := boolean
    obtain ⟨foundL, meansL⟩ := left booleanL (some zop) st
    rw [rpnSearchStructure, Structure.Found]
    generalize rpnSearchStructure reg s1 (some zop) st = outL at *
    obtain ⟨okL, setsL, stL⟩ := outL
    dsimp only at *
    obtain ⟨foundR, meansR⟩ := right booleanR (some zop) stL
    generalize rpnSearchStructure reg s2 (some zop) stL = outR at *
    obtain ⟨okR, setsR, stR⟩ := outR
    dsimp only at *
    rw [← foundL, ← foundR]
    cases okL with
    | false => exact ⟨⟨nofun, fun both => both.1⟩, nofun⟩
    | true =>
      cases okR with
      | false => exact ⟨⟨nofun, fun both => both.2⟩, nofun⟩
      | true =>
        obtain ⟨meansL, readsL⟩ := meansL rfl
        obtain ⟨meansR, readsR⟩ := meansR rfl
        have reads := readsAll_append readsL readsR
        rw [if_pos rfl, if_pos rfl]
        cases left : leaves parent zop with
        | true =>
          refine ⟨⟨fun _ => ⟨rfl, rfl⟩, fun _ => rfl⟩, fun _ => ?_⟩
          unfold leaves at left
          split at left
          · exact ⟨meansL.and meansR, reads⟩
          · exact ⟨meansL.or meansR, reads⟩
          · cases left
        | false =>
          obtain ⟨rset, made, owns, means⟩ :=
            combine_means reg noSegments no_prox stR meansL meansR reads
          rw [if_neg Bool.false_ne_true]
          generalize combine reg zop (setsL ++ setsR) stR = out at *
          obtain ⟨made', st'⟩ := out
          cases made
          refine ⟨⟨fun _ => ⟨rfl, rfl⟩, fun _ => rfl⟩,
            fun _ => ⟨means_one _ fun key => ?_, owns, trivial⟩⟩
          rw [means key]
          cases zop <;> rfl

/-- Two terms with a key each, in one record. -/
def oneRecord : Register (LevelKey 2) Nat Bool Nat where
  searchApt
    | false => some {(⟨[1, 3], rfl⟩, 0)}
    | true => some {(⟨[1, 5], rfl⟩, 1)}
  resultSetRef _ := none
  searchGroup _ _ := none

/-- `zebra_key_control_create` where segments are in use. -/
def segmentKeyControl : KeyControl (LevelKey 3) where
  cmp := (itKeyControl 3).cmp
  scope := 3
  getSegment := some fun key => key.val.getD (key.val.length - 2) 0
  scope_pos := by decide
  swap := (itKeyControl 3).swap
  chain := (itKeyControl 3).chain

def twoSegments : Register (LevelKey 3) Nat Bool Nat where
  searchApt
    | false => some {(⟨[1, 1, 3], rfl⟩, 0)}
    | true => some {(⟨[1, 2, 5], rfl⟩, 1)}
  resultSetRef _ := none
  searchGroup _ _ := none

end Zebra.Rpn
