import Mathlib.Data.List.Induction
import Zebra.Index.KeyBlock
import Zebra.Lib.LongestFront

/-!
# Character maps

`charmap.c`: a map is a trie, built by `set_map_string` on a table in which each character has the
target for unknown ones.  `chr_map_input` looks for the longest key of the map at the beginning of
its input.
-/

namespace Zebra.CharMap

open List Option

def chrFieldBegin : Byte := 94

def chrUnknown : List Byte := [1]

def chrSpace : List Byte := [2]

def chrCut : List Byte := [3]

/-- `struct chr_t_entry`; an array of targets has one string. -/
inductive ChrTEntry where
  | node (children : Option (Byte → Option ChrTEntry)) (target : Option (List Byte))

namespace ChrTEntry

def children : ChrTEntry → Option (Byte → Option ChrTEntry)
  | node children _ => children

def target : ChrTEntry → Option (List Byte)
  | node _ target => target

def child (t : ChrTEntry) (c : Byte) : Option ChrTEntry :=
    t.children.bind fun children => children c

end ChrTEntry

/-- What `set_map_string` begins with where there is no node. -/
def emptyEntry : ChrTEntry := .node none none

def setMapString (root : Option ChrTEntry) (from' : List Byte) (to' : List Byte) : ChrTEntry :=
  let root := root.getD emptyEntry
  match from' with
  | [] => if root.target = some to' then root else .node root.children (some to')
  | c :: from' =>
    let children := root.children.getD fun _ => none
    .node (some (Function.update children c (some (setMapString (children c) from' to'))))
      root.target

/-- The table of `chrmaptab_create`. -/
def initialInput : ChrTEntry :=
  .node (some fun _ => some (.node none (some chrUnknown))) (some chrUnknown)

def mapInput (sets : List (List Byte × List Byte)) : ChrTEntry :=
  sets.foldl (fun root set => setMapString (some root) set.1 set.2) initialInput

/-- A node with a target, with the number of steps that lead to it. -/
def self (t : ChrTEntry) : Option (Nat × ChrTEntry) := if t.target.isSome then some (0, t) else none

/-- `find_entry_x` with `first` 0 on the buffer behind which the length is -1: the node with the
number of steps to it, and the buffer with the pointer and length as they are left. -/
def findEntry (t : ChrTEntry) : List Byte → Option (Nat × ChrTEntry) × List Byte
  | [] => (self t, [])
  | c :: rest =>
    match t.child c with
    | none => (self t, c :: rest)
    | some child =>
      match findEntry child rest with
      | (some (steps, res), after) => (some (steps + 1, res), after)
      | (none, _) => (self t, c :: rest)

/-- `find_entry_x`; the attempt at the beginning of a field counts if it gets below the node for
`CHR_FIELD_BEGIN`, and otherwise the search goes on with what it has left of the buffer. -/
def findEntryX (t : ChrTEntry) (from' : List Byte) (first : Bool) :
    Option (Nat × ChrTEntry) × List Byte :=
  match from' with
  | [] => (self t, [])
  | c :: rest =>
    match if first then t.child chrFieldBegin else none with
    | none => findEntry t (c :: rest)
    | some begin' =>
      match findEntry begin' (c :: rest) with
      | (some (steps + 1, res), after) => (some (steps + 2, res), after)
      | (_, now) => findEntry t now

/-- `chr_map_input`: the target and the rest of the input; none where it aborts. -/
def chrMapInput (input : ChrTEntry) (from' : List Byte) (first : Bool) :
    Option (List Byte × List Byte) :=
  let found := findEntryX input from' first
  found.1.bind fun res => res.2.target.map fun target => (target, found.2)

def targetAt (t : ChrTEntry) : List Byte → Option (List Byte)
  | [] => t.target
  | c :: path => (t.child c).bind fun child => targetAt child path

theorem child_getD (t : ChrTEntry) (c : Byte) : t.children.getD (fun _ => none) c = t.child c := by
  unfold ChrTEntry.child
  cases t.children with
  | none => rfl
  | some children => rfl

theorem setMapString_child (root : Option ChrTEntry) (c d : Byte) (from' to' : List Byte) :
    (setMapString root (c :: from') to').child d =
      if d = c then some (setMapString ((root.getD emptyEntry).child c) from' to')
      else (root.getD emptyEntry).child d := by
  rw [setMapString, ← child_getD (root.getD emptyEntry) c, ← child_getD (root.getD emptyEntry) d]
  exact Function.update_apply ((root.getD emptyEntry).children.getD fun _ => none) c _ d

theorem setMapString_target (root : Option ChrTEntry) (c : Byte) (from' to' : List Byte) :
    (setMapString root (c :: from') to').target = (root.getD emptyEntry).target := by
  rw [setMapString]
  rfl

theorem targetAt_empty (path : List Byte) : targetAt emptyEntry path = none := by
  cases path with
  | nil => rfl
  | cons c path => rfl

/-- `set_map_string` sets the target of its string and leaves those of all others. -/
theorem targetAt_setMapString (root : Option ChrTEntry) (from' to' path : List Byte) :
    targetAt (setMapString root from' to') path =
      if path = from' then some to' else targetAt (root.getD emptyEntry) path := by
  induction from' generalizing root path with
  | nil =>
    rw [setMapString]
    cases path with
    | nil =>
      split
      · rename_i same
        exact same
      · rfl
    | cons c path =>
      split
      · rfl
      · rfl
  | cons c from' ih =>
    cases path with
    | nil => exact setMapString_target root c from' to'
    | cons d path =>
      rw [targetAt, setMapString_child]
      by_cases same : d = c
      · subst same
        rw [if_pos rfl, bind_some, ih]
        simp only [List.cons.injEq, true_and]
        split
        · rfl
        · rw [targetAt]
          cases (root.getD emptyEntry).child d with
          | none => exact targetAt_empty path
          | some child => rfl
      · rw [if_neg same, if_neg fun eq => same (List.cons.inj eq).1]
        rfl

def keyTarget (sets : List (List Byte × List Byte)) (key : List Byte) : Option (List Byte) :=
  (sets.reverse.find? fun set => set.1 = key).map Prod.snd

theorem keyTarget_append (sets : List (List Byte × List Byte)) (set : List Byte × List Byte)
    (key : List Byte) :
    keyTarget (sets ++ [set]) key = if set.1 = key then some set.2 else keyTarget sets key := by
  unfold keyTarget
  rw [reverse_append, reverse_singleton, singleton_append, find?_cons]
  split
  · rename_i same
    rw [if_pos (of_decide_eq_true same)]
    rfl
  · rename_i other
    rw [if_neg (of_decide_eq_false other)]

theorem targetAt_initial (path : List Byte) :
    targetAt initialInput path = if path.length ≤ 1 then some chrUnknown else none := by
  cases path with
  | nil => rfl
  | cons c path =>
    cases path with
    | nil => rfl
    | cons d path => rfl

/-- The targets in a map are those of its keys, and the unknown one for other single characters. -/
theorem targetAt_mapInput (sets : List (List Byte × List Byte)) (path : List Byte) :
    targetAt (mapInput sets) path =
      (keyTarget sets path).or (if path.length ≤ 1 then some chrUnknown else none) := by
  induction sets using reverseRecOn with
  | nil => exact targetAt_initial path
  | append_singleton sets set ih =>
    rw [mapInput, foldl_append, foldl_cons, foldl_nil, targetAt_setMapString,
      keyTarget_append]
    by_cases same : set.1 = path
    · rw [if_pos same, if_pos same.symm]
      rfl
    · rw [if_neg same, if_neg fun eq => same eq.symm]
      exact ih

/-- `find_entry_x` with `first` 0 gives the node of the longest front with a target and leaves the
pointer behind it; if there is none, the pointer is where it was. -/
theorem findEntry_spec (t : ChrTEntry) (s : List Byte) :
    (∃ steps res target, findEntry t s = (some (steps, res), s.drop steps) ∧
      res.target = some target ∧ LongestFront (targetAt t) s steps target) ∨
    (findEntry t s = (none, s) ∧ ∀ n, n ≤ s.length → targetAt t (s.take n) = none) := by
  induction s generalizing t with
  | nil =>
    rw [findEntry, self]
    cases here : t.target with
    | none =>
      refine .inr ⟨rfl, fun n _ => ?_⟩
      rw [take_nil]
      exact here
    | some target =>
      refine .inl ⟨0, t, target, rfl, here, ⟨le_rfl, here, fun m less within => ?_⟩⟩
      exact absurd within (Nat.not_le_of_lt less)
  | cons c rest ih =>
    have deeper (m : Nat) : targetAt t ((c :: rest).take (m + 1)) =
        (t.child c).bind fun child => targetAt child (rest.take m) := rfl
    -- where no longer front has a target, the node itself is found if it has one
    have own (none : ∀ m, m ≤ rest.length → targetAt t ((c :: rest).take (m + 1)) = none) :
        (∃ steps res target, (self t, c :: rest) = (some (steps, res), (c :: rest).drop steps) ∧
          res.target = some target ∧ LongestFront (targetAt t) (c :: rest) steps target) ∨
        ((self t, c :: rest) = (Option.none, c :: rest) ∧
          ∀ n, n ≤ (c :: rest).length → targetAt t ((c :: rest).take n) = Option.none) := by
      rw [self]
      cases here : t.target with
      | none =>
        refine .inr ⟨rfl, fun n within => ?_⟩
        cases n with
        | zero => exact here
        | succ n => exact none n (Nat.le_of_succ_le_succ within)
      | some target => exact .inl ⟨0, t, target, rfl, here, longestFront_zero here none⟩
    rw [findEntry]
    cases step : t.child c with
    | none =>
      refine own fun m _ => ?_
      rw [deeper, step]
      rfl
    | some child =>
      dsimp only
      rcases ih child with ⟨steps, res, target, found, here, longest⟩ | ⟨missed, none⟩
      · rw [found]
        refine .inl ⟨steps + 1, res, target, rfl, here, LongestFront.cons ?_⟩
        have same : (fun p => targetAt t (c :: p)) = targetAt child := by
          funext p
          rw [targetAt, step]
          rfl
        rw [same]
        exact longest
      · rw [missed]
        refine own fun m within => ?_
        rw [deeper, step]
        exact none m within

def keyOf (sets : List (List Byte × List Byte)) (p : List Byte) : Option (List Byte) :=
  if p = [] then none else keyTarget sets p

/-- The target of a key that is anchored and has more than the anchor. -/
def anchoredOf (sets : List (List Byte × List Byte)) (p : List Byte) : Option (List Byte) :=
  if p = [] then none else keyTarget sets (chrFieldBegin :: p)

def NoFront (f : List Byte → Option (List Byte)) (s : List Byte) : Prop :=
  ∀ n, n ≤ s.length → f (s.take n) = none

/-- What an input is to be mapped to, and how many of its characters are mapped, where `key` and
`anchored` say which strings are keys. -/
inductive Mapped (key anchored : List Byte → Option (List Byte)) (s : List Byte) :
    Bool → List Byte → Nat → Prop where
  | anchored {n : Nat} {target : List Byte} : LongestFront anchored s n target →
      Mapped key anchored s true target n
  | longest {first : Bool} {n : Nat} {target : List Byte} : (first = true → NoFront anchored s) →
      LongestFront key s n target → Mapped key anchored s first target n
  | unknown {first : Bool} : (first = true → NoFront anchored s) → NoFront key s →
      Mapped key anchored s first chrUnknown 1

theorem not_noFront {f : List Byte → Option (List Byte)} {s target : List Byte} {n : Nat}
    (longest : LongestFront f s n target) : ¬ NoFront f s := by
  intro none
  have missing := none n longest.le
  rw [longest.here] at missing
  cases missing

theorem Mapped.unique {key anchored : List Byte → Option (List Byte)} {s : List Byte} {first : Bool}
    {target target' : List Byte} {n n' : Nat} (one : Mapped key anchored s first target n)
    (two : Mapped key anchored s first target' n') : target = target' ∧ n = n' := by
  cases one with
  | anchored here =>
    cases two with
    | anchored there => exact (here.unique there).symm
    | longest noAnchored there => exact absurd (noAnchored rfl) (not_noFront here)
    | unknown noAnchored none => exact absurd (noAnchored rfl) (not_noFront here)
  | longest noAnchored here =>
    cases two with
    | anchored there => exact absurd (noAnchored rfl) (not_noFront there)
    | longest _ there => exact (here.unique there).symm
    | unknown _ none => exact absurd none (not_noFront here)
  | unknown noAnchored none =>
    cases two with
    | anchored there => exact absurd (noAnchored rfl) (not_noFront there)
    | longest _ there => exact absurd none (not_noFront there)
    | unknown _ _ => exact ⟨rfl, rfl⟩

theorem mapInput_child (sets : List (List Byte × List Byte)) (c : Byte) :
    ∃ child, (mapInput sets).child c = some child := by
  induction sets using reverseRecOn with
  | nil => exact ⟨_, rfl⟩
  | append_singleton sets set ih =>
    rw [mapInput, foldl_append, foldl_cons, foldl_nil]
    obtain ⟨child, had⟩ := ih
    obtain ⟨from', to'⟩ := set
    cases from' with
    | nil =>
      refine ⟨child, ?_⟩
      rw [setMapString]
      split
      · exact had
      · exact had
    | cons d from' =>
      rw [setMapString_child]
      split
      · exact ⟨_, rfl⟩
      · exact ⟨child, had⟩

theorem targetAt_mapInput_single (sets : List (List Byte × List Byte)) (c : Byte) :
    targetAt (mapInput sets) [c] = some ((keyTarget sets [c]).getD chrUnknown) := by
  rw [targetAt_mapInput]
  cases keyTarget sets [c] with
  | none => rfl
  | some target => rfl

theorem targetAt_mapInput_longer (sets : List (List Byte × List Byte)) {path : List Byte}
    (long : 2 ≤ path.length) : targetAt (mapInput sets) path = keyTarget sets path := by
  rw [targetAt_mapInput, if_neg (by omega), or_none]

theorem take_ne_nil {c : Byte} {rest : List Byte} {m : Nat} (pos : 0 < m) :
    (c :: rest).take m ≠ [] := by
  cases m with
  | zero => exact absurd pos (Nat.lt_irrefl 0)
  | succ m => exact cons_ne_nil _ _

/-- Without the anchor the longest key is found, or the character is unknown. -/
theorem findEntry_mapInput (sets : List (List Byte × List Byte)) (c : Byte) (rest : List Byte) :
    ∃ steps res target, findEntry (mapInput sets) (c :: rest) =
        (some (steps, res), (c :: rest).drop steps) ∧ res.target = some target ∧
      (LongestFront (keyOf sets) (c :: rest) steps target ∨
        (NoFront (keyOf sets) (c :: rest) ∧ target = chrUnknown ∧ steps = 1)) := by
  have single := targetAt_mapInput_single sets c
  rcases findEntry_spec (mapInput sets) (c :: rest) with
    ⟨steps, res, target, found, here, longest⟩ | ⟨-, none⟩
  swap
  · have first := none 1 (Nat.succ_le_succ (Nat.zero_le _))
    rw [show (c :: rest).take 1 = [c] from rfl, single] at first
    cases first
  have pos : 0 < steps := by
    by_contra zero
    have first := longest.longer 1 (by omega) (Nat.succ_le_succ (Nat.zero_le _))
    rw [show (c :: rest).take 1 = [c] from rfl, single] at first
    cases first
  have long (m : Nat) (two : 2 ≤ m) (within : m ≤ (c :: rest).length) :
      targetAt (mapInput sets) ((c :: rest).take m) = keyOf sets ((c :: rest).take m) := by
    rw [targetAt_mapInput_longer sets (by rw [length_take]; omega), keyOf,
      if_neg (take_ne_nil (by omega))]
  have longer (m : Nat) (more : steps < m) (within : m ≤ (c :: rest).length) :
      keyOf sets ((c :: rest).take m) = none := by
    rw [← long m (by omega) within]
    exact longest.longer m more within
  refine ⟨steps, res, target, found, here, ?_⟩
  by_cases two : 2 ≤ steps
  · exact .inl ⟨longest.le, (long steps two longest.le).symm.trans longest.here, longer⟩
  · obtain rfl : steps = 1 := by omega
    have target_eq : (keyTarget sets [c]).getD chrUnknown = target :=
      Option.some.inj (single.symm.trans longest.here)
    have own : keyOf sets ((c :: rest).take 1) = keyTarget sets [c] := if_neg (cons_ne_nil _ _)
    cases key : keyTarget sets [c] with
    | some to' =>
      rw [key, getD_some] at target_eq
      exact .inl ⟨longest.le, own.trans (key.trans (congrArg some target_eq)), longer⟩
    | none =>
      rw [key, getD_none] at target_eq
      refine .inr ⟨fun m within => ?_, target_eq.symm, rfl⟩
      rcases Nat.lt_trichotomy m 1 with zero | one | more
      · obtain rfl : m = 0 := by omega
        rfl
      · subst one
        exact own.trans key
      · exact longer m more within

/-- Behind the anchor the longest key is found, or the node of the anchor. -/
theorem findEntry_anchor (sets : List (List Byte × List Byte)) {begin' : ChrTEntry}
    (child : (mapInput sets).child chrFieldBegin = some begin') (s : List Byte) :
    ∃ steps res target, findEntry begin' s = (some (steps, res), s.drop steps) ∧
      res.target = some target ∧
      ((0 < steps ∧ LongestFront (anchoredOf sets) s steps target) ∨
        (steps = 0 ∧ NoFront (anchoredOf sets) s)) := by
  have under (p : List Byte) : targetAt begin' p = targetAt (mapInput sets)
      (chrFieldBegin :: p) := by
    rw [targetAt, child, bind_some]
  have single := targetAt_mapInput_single sets chrFieldBegin
  rcases findEntry_spec begin' s with ⟨steps, res, target, found, here, longest⟩ | ⟨-, none⟩
  swap
  · have own := none 0 (Nat.zero_le _)
    rw [take_zero, under, single] at own
    cases own
  have long (m : Nat) (pos : 0 < m) (within : m ≤ s.length) :
      targetAt begin' (s.take m) = anchoredOf sets (s.take m) := by
    have nonempty : s.take m ≠ [] := by
      rw [ne_eq, ← length_eq_zero_iff, length_take]
      omega
    rw [under, anchoredOf, if_neg nonempty, targetAt_mapInput_longer sets]
    rw [length_cons, length_take]
    omega
  have longer (m : Nat) (more : steps < m) (within : m ≤ s.length) :
      anchoredOf sets (s.take m) = none := by
    rw [← long m (by omega) within]
    exact longest.longer m more within
  refine ⟨steps, res, target, found, here, ?_⟩
  rcases Nat.eq_zero_or_pos steps with zero | pos
  · refine .inr ⟨zero, fun m within => ?_⟩
    rcases Nat.eq_zero_or_pos m with rfl | more
    · rfl
    · exact longer m (by omega) within
  · exact .inl ⟨pos, ⟨longest.le, (long steps pos longest.le).symm.trans longest.here, longer⟩⟩

theorem chrMapInput_mapped (sets : List (List Byte × List Byte)) {s : List Byte} (nonempty : s ≠ [])
    (first : Bool) :
    ∃ target n, chrMapInput (mapInput sets) s first = some (target, s.drop n) ∧ n ≤ s.length ∧
      Mapped (keyOf sets) (anchoredOf sets) s first target n := by
  cases s with
  | nil => exact absurd rfl nonempty
  | cons c rest =>
    -- what the search without the anchor comes to, where the anchored one has found nothing
    have plain (noAnchored : first = true → NoFront (anchoredOf sets) (c :: rest))
        (falls : findEntryX (mapInput sets) (c :: rest) first =
          findEntry (mapInput sets) (c :: rest)) :
        ∃ target n, chrMapInput (mapInput sets) (c :: rest) first =
            some (target, (c :: rest).drop n) ∧ n ≤ (c :: rest).length ∧
          Mapped (keyOf sets) (anchoredOf sets) (c :: rest) first target n := by
      obtain ⟨steps, res, target, found, here, outcome⟩ := findEntry_mapInput sets c rest
      have mapped : chrMapInput (mapInput sets) (c :: rest) first =
          some (target, (c :: rest).drop steps) := by
        rw [chrMapInput, falls, found, bind_some, here, map_some]
      rcases outcome with longest | ⟨noKey, rfl, rfl⟩
      · exact ⟨target, steps, mapped, longest.le, .longest noAnchored longest⟩
      · exact ⟨chrUnknown, 1, mapped, Nat.succ_le_succ (Nat.zero_le _), .unknown noAnchored noKey⟩
    cases first with
    | false => exact plain (fun field => Bool.noConfusion field) rfl
    | true =>
      obtain ⟨begin', child⟩ := mapInput_child sets chrFieldBegin
      obtain ⟨steps, res, target, found, here, outcome⟩ :=
        findEntry_anchor sets child (c :: rest)
      rcases outcome with ⟨pos, longest⟩ | ⟨rfl, noFront⟩
      · obtain ⟨steps, rfl⟩ := Nat.exists_eq_succ_of_ne_zero (Nat.ne_of_gt pos)
        refine ⟨target, steps + 1, ?_, longest.le, .anchored longest⟩
        rw [chrMapInput, findEntryX, if_pos rfl, child]
        dsimp only
        rw [found, bind_some, here, map_some]
      · refine plain (fun _ => noFront) ?_
        rw [findEntryX, if_pos rfl, child]
        dsimp only
        rw [found]
        rfl

/-- A search that finds nothing leaves the pointer where it was. -/
theorem findEntry_restored (t : ChrTEntry) (s : List Byte) (missed : (findEntry t s).1 = none) :
    (findEntry t s).2 = s := by
  rcases findEntry_spec t s with ⟨steps, res, target, found, -⟩ | ⟨none, -⟩
  · rw [found] at missed
    cases missed
  · rw [none]

theorem findEntryX_restored (t : ChrTEntry) (s : List Byte) (first : Bool)
    (missed : (findEntryX t s first).1 = none) : (findEntryX t s first).2 = s := by
  unfold findEntryX at missed ⊢
  split
  · rfl
  · rename_i c rest
    dsimp only at missed ⊢
    split
    · rename_i noBegin
      rw [noBegin] at missed
      exact findEntry_restored t _ missed
    · rename_i begin' child
      rw [child] at missed
      dsimp only at missed ⊢
      rcases findEntry_spec begin' (c :: rest) with ⟨steps, res, target, found, -⟩ | ⟨none, -⟩
      · rw [found] at missed ⊢
        cases steps with
        | zero => exact findEntry_restored t _ missed
        | succ steps => cases missed
      · rw [none] at missed ⊢
        exact findEntry_restored t _ missed

/-- An input that is not empty is mapped by its longest key, an anchored one first at the beginning
of a field; and searches that find nothing restore the pointer. -/
theorem chr_map_input_longest :
    (∀ (sets : List (List Byte × List Byte)) (s : List Byte) (first : Bool), s ≠ [] →
      ∃ target n, chrMapInput (mapInput sets) s first = some (target, s.drop n) ∧ n ≤ s.length ∧
        Mapped (keyOf sets) (anchoredOf sets) s first target n) ∧
    (∀ (t : ChrTEntry) (s : List Byte), (findEntry t s).1 = none → (findEntry t s).2 = s) ∧
    (∀ (t : ChrTEntry) (s : List Byte) (first : Bool), (findEntryX t s first).1 = none →
      (findEntryX t s first).2 = s) :=
  ⟨fun sets _ first nonempty => chrMapInput_mapped sets nonempty first, findEntry_restored,
    findEntryX_restored⟩

theorem chr_map_input_longest_two :
    ∃ target n, chrMapInput (mapInput [([97, 98], [7])]) [97, 98, 99] false =
        some (target, ([97, 98, 99] : List Byte).drop n) ∧ n ≤ 3 ∧
      Mapped (keyOf [([97, 98], [7])]) (anchoredOf [([97, 98], [7])]) [97, 98, 99] false target n :=
  chr_map_input_longest.1 [([97, 98], [7])] [97, 98, 99] false (cons_ne_nil _ _)

/-- A map with a target for the empty key, which is a prefix of every input. -/
theorem not_chr_map_input_longest :
    ¬ ∀ (sets : List (List Byte × List Byte)) (s : List Byte) (first : Bool), s ≠ [] →
      ∃ target n, chrMapInput (mapInput sets) s first = some (target, s.drop n) ∧ n ≤ s.length ∧
        Mapped (keyTarget sets) (anchoredOf sets) s first target n := by
  intro longest
  obtain ⟨target, n, mapped, -, outcome⟩ := longest [([], [7])] [97] false (cons_ne_nil _ _)
  have result : chrMapInput (mapInput [([], [7])]) [97] false = some ([1], []) := rfl
  rw [result] at mapped
  cases outcome with
  | longest _ front =>
    have here := front.here
    have within := front.le
    obtain rfl | rfl : n = 0 ∨ n = 1 := by
      rw [length_singleton] at within
      omega
    · cases mapped
    · cases here
  | unknown _ noKey => cases noKey 0 (Nat.zero_le _)

end Zebra.CharMap
