import Mathlib.Data.List.Induction
import Zebra.Lib.Varint

/-!
# Elements by tag name

`d1_absyn.c`: a list of elements is searched through a hash table that is built from their names.  A
name with a wildcard goes to all chains of the table, any other name to the chain of its hash, which
looks at the letters and digits of a name only.
-/

namespace Zebra.Data1

open List Option

variable {E : Type}

def hashValue (c : Byte) : Option Nat :=
  if 97 ≤ c ∧ c ≤ 122 then some (c - 97 + 10)
  else if 65 ≤ c ∧ c ≤ 90 then some (c - 65 + 10)
  else if 48 ≤ c ∧ c ≤ 57 then some (c - 48)
  else none

/-- One round of `data1_hash_calc`, with an unsigned `v` of 32 bits. -/
def hashStep (v c : Nat) : Nat :=
  match hashValue c with
  | some value => (v * 65509 + value) % 2 ^ 32
  | none => v

def data1HashCalc (size : Nat) (str : List Byte) : Nat :=
  str.foldl hashStep 0 % size

/-- `struct data1_hash_table`, with the `str` and `clientData` of each entry of a chain -/
structure HashTable (E : Type) where
  size : Nat
  ar : Nat → List (List Byte × E)

def data1HashOpen (size : Nat) : HashTable E where
  size := if size = 0 then 29 else size
  ar := fun _ => []

/-- The entry of a chain with the string is changed, or one is added at the end. -/
def setEntry (str : List Byte) (clientData : E) :
    List (List Byte × E) → List (List Byte × E)
  | [] => [(str, clientData)]
  | he :: chain =>
    if he.1 = str then (he.1, clientData) :: chain else he :: setEntry str clientData chain

/-- Whether `strchr` finds `?` or `.` -/
def wildcard (str : List Byte) : Bool :=
  str.contains 63 || str.contains 46

def data1HashInsert (ht : HashTable E) (str : List Byte) (clientData : E) : HashTable E :=
  if wildcard str then
    { ht with ar := fun i => if i < ht.size then setEntry str clientData (ht.ar i) else ht.ar i }
  else
    { ht with
      ar := fun i =>
        if i = data1HashCalc ht.size str then setEntry str clientData (ht.ar i) else ht.ar i }

/-- `data1_hash_lookup`; `yaz_matchstr` is 0 for strings that match -/
def data1HashLookup (matchstr : List Byte → List Byte → Int) (ht : HashTable E) (str : List Byte) :
    Option E :=
  ((ht.ar (data1HashCalc ht.size str)).find? fun he => matchstr str he.1 = 0).map Prod.snd

def tagNames (r : List (E × List (List Byte))) : List (List Byte × E) :=
  r.flatMap fun e => e.2.map fun name => (name, e.1)

/-- `data1_getelementbytagname` on the list `r` of the elements and the names of their tags -/
def data1Getelementbytagname (matchstr : List Byte → List Byte → Int)
    (r : List (E × List (List Byte))) (tagname : List Byte) : Option E :=
  if r.isEmpty then none
  else
    let ht := (tagNames r).foldl (fun ht n => data1HashInsert ht n.1 n.2) (data1HashOpen 29)
    data1HashLookup matchstr ht tagname

def linearGetelementbytagname (matchstr : List Byte → List Byte → Int)
    (r : List (E × List (List Byte))) (tagname : List Byte) : Option E :=
  r.findSome? fun e => if e.2.any fun name => matchstr tagname name = 0 then some e.1 else none

def lastNamed (str : List Byte) (entries : List (List Byte × E)) : Option E :=
  (entries.reverse.find? fun n => n.1 = str).map Prod.snd

/-- A chain behind the insertions of `entries`. -/
def chainOf (entries : List (List Byte × E)) : List (List Byte × E) :=
  entries.foldl (fun chain n => setEntry n.1 n.2 chain) []

theorem chainOf_concat (entries : List (List Byte × E)) (n : List Byte × E) :
    chainOf (entries ++ [n]) = setEntry n.1 n.2 (chainOf entries) := by
  rw [chainOf, foldl_append]
  rfl

theorem find?_setEntry (p : List Byte → Bool) (str : List Byte) (clientData : E)
    (chain : List (List Byte × E)) :
    ((setEntry str clientData chain).find? fun he => p he.1) =
      ((chain.find? fun he => p he.1).map fun he =>
        if he.1 = str then (he.1, clientData) else he).or
          (if p str then some (str, clientData) else none) := by
  induction chain with
  | nil =>
    rw [setEntry, find?_singleton]
    rfl
  | cons he chain induction =>
    rw [setEntry]
    by_cases same : he.1 = str
    · rw [if_pos same, find?_cons, find?_cons]
      cases accepted : p he.1 with
      | true =>
        dsimp only
        rw [map_some, if_pos same, some_or]
      | false =>
        -- what is found behind has another string
        have rejected : p str = false := same ▸ accepted
        dsimp only
        rw [rejected, if_neg Bool.false_ne_true, or_none]
        cases found : chain.find? fun he => p he.1 with
        | none => rfl
        | some other =>
          have other_accepted := find?_some (p := fun he : List Byte × E => p he.1) found
          rw [map_some, if_neg]
          intro eq
          rw [eq, rejected] at other_accepted
          cases other_accepted
    · rw [if_neg same, find?_cons, find?_cons]
      cases accepted : p he.1 with
      | true =>
        dsimp only
        rw [map_some, if_neg same, some_or]
      | false =>
        dsimp only
        exact induction

theorem lastNamed_concat (str : List Byte) (entries : List (List Byte × E)) (n : List Byte × E) :
    lastNamed str (entries ++ [n]) = if n.1 = str then some n.2 else lastNamed str entries := by
  rw [lastNamed, reverse_concat, find?_cons]
  by_cases same : n.1 = str
  · simp [same]
  · simp [same, lastNamed]

/-- The first name that matches is found in a chain, with the last element of that name. -/
theorem find?_chainOf (p : List Byte → Bool) (entries : List (List Byte × E)) :
    ((chainOf entries).find? fun he => p he.1).map (fun he => (he.1, some he.2)) =
      (entries.find? fun n => p n.1).map fun n => (n.1, lastNamed n.1 entries) := by
  induction entries using reverseRecOn with
  | nil => rfl
  | append_singleton entries n induction =>
    rw [chainOf_concat, find?_setEntry, find?_append, find?_singleton]
    cases found : entries.find? fun n => p n.1 with
    | some first =>
      rw [found, map_some, map_eq_some_iff] at induction
      obtain ⟨he, chain_found, eq⟩ := induction
      obtain ⟨name_eq, last_eq⟩ := Prod.mk.inj eq
      rw [chain_found, map_some, some_or, some_or, map_some,
        map_some, lastNamed_concat, ← name_eq]
      by_cases same : n.1 = he.1
      · rw [if_pos same.symm, if_pos same]
      · rw [if_neg (Ne.symm same), if_neg same, last_eq, name_eq]
    | none =>
      rw [found, map_none, map_eq_none_iff] at induction
      rw [induction, map_none, none_or]
      by_cases accepted : p n.1 = true
      · simp [accepted, lastNamed_concat]
      · simp [accepted]

def inChain (size i : Nat) (n : List Byte × E) : Bool :=
  wildcard n.1 || i = data1HashCalc size n.1

theorem data1HashInsert_ar (ht : HashTable E) (n : List Byte × E) {i : Nat} (small : i < ht.size) :
    (data1HashInsert ht n.1 n.2).ar i =
      if inChain ht.size i n then setEntry n.1 n.2 (ht.ar i) else ht.ar i := by
  rw [data1HashInsert, inChain]
  by_cases wild : wildcard n.1 = true
  · rw [if_pos wild, wild, Bool.true_or, if_pos rfl]
    dsimp only
    rw [if_pos small]
  · rw [if_neg wild, Bool.eq_false_of_not_eq_true wild, Bool.false_or]
    dsimp only
    by_cases here : i = data1HashCalc ht.size n.1
    · rw [if_pos here, if_pos (decide_eq_true here)]
    · rw [if_neg here, decide_eq_false here, if_neg Bool.false_ne_true]

theorem data1HashInsert_size (ht : HashTable E) (str : List Byte) (clientData : E) :
    (data1HashInsert ht str clientData).size = ht.size := by
  rw [data1HashInsert]
  split <;> rfl

theorem foldl_insert_ar (entries : List (List Byte × E)) {i : Nat} (small : i < 29) :
    (entries.foldl (fun ht n => data1HashInsert ht n.1 n.2) (data1HashOpen 29)).size = 29 ∧
      (entries.foldl (fun ht n => data1HashInsert ht n.1 n.2) (data1HashOpen 29)).ar i =
        chainOf (entries.filter (inChain 29 i)) := by
  induction entries using reverseRecOn with
  | nil => exact ⟨rfl, rfl⟩
  | append_singleton entries n induction =>
    obtain ⟨size, chain⟩ := induction
    rw [foldl_append, foldl_cons, foldl_nil, filter_append]
    refine ⟨(data1HashInsert_size _ _ _).trans size, ?_⟩
    rw [data1HashInsert_ar _ _ (by rw [size]; exact small), size, chain]
    by_cases here : inChain 29 i n = true
    · rw [if_pos here, filter_cons_of_pos here, filter_nil, chainOf_concat]
    · rw [if_neg here, filter_cons_of_neg here, filter_nil, append_nil]

/-- What `yaz_matchstr` promises: strings that match without a wildcard have the same letters and
digits but for case. -/
def Folds (matchstr : List Byte → List Byte → Int) : Prop :=
  ∀ str name, wildcard name = false → matchstr str name = 0 →
    str.filterMap hashValue = name.filterMap hashValue

theorem data1HashCalc_eq (size : Nat) (str : List Byte) : data1HashCalc size str =
    (str.filterMap hashValue).foldl (fun v value => (v * 65509 + value) % 2 ^ 32) 0 % size := by
  have fold : ∀ v, str.foldl hashStep v =
      (str.filterMap hashValue).foldl (fun v value => (v * 65509 + value) % 2 ^ 32) v := by
    induction str with
    | nil => exact fun _ => rfl
    | cons c str induction =>
      intro v
      rw [foldl_cons, filterMap_cons, hashStep]
      cases value : hashValue c with
      | none => exact induction v
      | some value => exact induction _
  rw [data1HashCalc, fold]

theorem inChain_of_match {matchstr : List Byte → List Byte → Int} (folds : Folds matchstr)
    {str : List Byte} {n : List Byte × E} (same : matchstr str n.1 = 0) :
    inChain 29 (data1HashCalc 29 str) n = true := by
  rw [inChain, Bool.or_eq_true]
  cases wild : wildcard n.1 with
  | true => exact Or.inl rfl
  | false =>
    right
    rw [data1HashCalc_eq, data1HashCalc_eq, folds str n.1 wild same]
    exact decide_eq_true rfl

theorem find?_names (p : List Byte → Bool) (names : List (List Byte)) (e : E) :
    ((names.map fun name => (name, e)).find? fun n => p n.1).map Prod.snd =
      if names.any p then some e else none := by
  induction names with
  | nil => rfl
  | cons name names induction =>
    rw [map_cons, find?_cons, any_cons]
    cases accepted : p name with
    | true => rfl
    | false => exact induction

theorem linear_eq (matchstr : List Byte → List Byte → Int) (r : List (E × List (List Byte)))
    (tagname : List Byte) : linearGetelementbytagname matchstr r tagname =
      ((tagNames r).find? fun n => matchstr tagname n.1 = 0).map Prod.snd := by
  induction r with
  | nil => rfl
  | cons e r induction =>
    have names := find?_names (fun name => decide (matchstr tagname name = 0)) e.2 e.1
    rw [linearGetelementbytagname] at induction ⊢
    have cons_names : tagNames (e :: r) = (e.2.map fun name => (name, e.1)) ++ tagNames r := rfl
    rw [findSome?_cons, ← names, induction, cons_names, find?_append]
    cases (e.2.map fun name => (name, e.1)).find? fun n => decide (matchstr tagname n.1 = 0) with
    | none => rfl
    | some n => rfl

/-- The first name that matches is not that of a later, other element as well. -/
def Unrepeated (matchstr : List Byte → List Byte → Int) (r : List (E × List (List Byte)))
    (tagname : List Byte) : Prop :=
  ∀ n ∈ (tagNames r).find? fun n => matchstr tagname n.1 = 0,
    lastNamed n.1 (tagNames r) = some n.2

theorem find?_filter_of_imp {p q : List Byte × E → Bool} (imp : ∀ n, p n = true → q n = true)
    (entries : List (List Byte × E)) : (entries.filter q).find? p = entries.find? p := by
  rw [find?_filter]
  congr 1
  funext n
  cases accepted : p n with
  | true => rw [imp n accepted]; rfl
  | false => simp

theorem lastNamed_filter {str : List Byte} {q : List Byte × E → Bool}
    (imp : ∀ n : List Byte × E, n.1 = str → q n = true) (entries : List (List Byte × E)) :
    lastNamed str (entries.filter q) = lastNamed str entries := by
  rw [lastNamed, lastNamed, ← filter_reverse, find?_filter_of_imp]
  intro n same
  exact imp n (of_decide_eq_true same)

theorem hash_eq {matchstr : List Byte → List Byte → Int} (folds : Folds matchstr)
    (r : List (E × List (List Byte))) (tagname : List Byte) :
    data1Getelementbytagname matchstr r tagname =
      ((tagNames r).find? fun n => matchstr tagname n.1 = 0).bind fun n =>
        lastNamed n.1 (tagNames r) := by
  have small : data1HashCalc 29 tagname < 29 := Nat.mod_lt _ (by decide)
  obtain ⟨size, chain⟩ := foldl_insert_ar (tagNames r) small
  rw [data1Getelementbytagname]
  split
  · rename_i empty
    rw [List.isEmpty_iff.mp empty]
    rfl
  · dsimp only
    rw [data1HashLookup, size, chain]
    have named := congrArg (fun found => found.bind Prod.snd) (find?_chainOf
      (fun name => decide (matchstr tagname name = 0))
      ((tagNames r).filter (inChain 29 (data1HashCalc 29 tagname))))
    simp only [Option.bind_map] at named
    rw [find?_filter_of_imp] at named
    · rw [map_eq_bind]
      refine named.trans ?_
      apply Option.bind_congr
      intro n found
      have same : matchstr tagname n.1 = 0 := by simpa using find?_some found
      apply lastNamed_filter
      intro other other_eq
      exact inChain_of_match folds (other_eq ▸ same)
    · intro n same
      exact inChain_of_match folds (of_decide_eq_true same)

/-- The hash finds what the linear search finds just when no other element has the name again. -/
theorem getelementbytagname_linear_iff {matchstr : List Byte → List Byte → Int}
    (folds : Folds matchstr) (r : List (E × List (List Byte))) (tagname : List Byte) :
    data1Getelementbytagname matchstr r tagname = linearGetelementbytagname matchstr r tagname ↔
      Unrepeated matchstr r tagname := by
  rw [hash_eq folds, linear_eq, Unrepeated]
  cases (tagNames r).find? fun n => matchstr tagname n.1 = 0 with
  | none => simp
  | some n => simp

/-- Strings without hyphens and wildcards match when they are equal but for case. -/
def plainMatchstr (str name : List Byte) : Int :=
  if str.map hashValue = name.map hashValue then 0 else 1

theorem folds_plainMatchstr : Folds plainMatchstr := by
  intro str name _ same
  have equal : str.map hashValue = name.map hashValue := by
    by_contra differ
    rw [plainMatchstr, if_neg differ] at same
    cases same
  have values := congrArg (filterMap id) equal
  rwa [filterMap_map, filterMap_map] at values

/-- The elements `title` and `author`, looked up as `Title`. -/
theorem getelementbytagname_linear_iff_title :
    data1Getelementbytagname plainMatchstr [(1, [[116, 105]]), (2, [[97, 117]])] [84, 105] =
        linearGetelementbytagname plainMatchstr [(1, [[116, 105]]), (2, [[97, 117]])] [84, 105] ↔
      Unrepeated plainMatchstr [(1, [[116, 105]]), (2, [[97, 117]])] [84, 105] :=
  getelementbytagname_linear_iff folds_plainMatchstr _ _

/-- Of two elements with one name the hash finds the last. -/
theorem not_getelementbytagname_linear : ¬∀ (matchstr : List Byte → List Byte → Int),
    Folds matchstr → ∀ (r : List (Nat × List (List Byte))) (tagname : List Byte),
      data1Getelementbytagname matchstr r tagname =
        linearGetelementbytagname matchstr r tagname := by
  intro agree
  have equal := agree plainMatchstr folds_plainMatchstr [(1, [[97]]), (2, [[97]])] [97]
  have differ : data1Getelementbytagname plainMatchstr [(1, [[97]]), (2, [[97]])] [97] ≠
      linearGetelementbytagname plainMatchstr [(1, [[97]]), (2, [[97]])] [97] := by
    decide
  exact differ equal

end Zebra.Data1
