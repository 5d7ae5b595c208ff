import Mathlib.Data.List.Lex
import Mathlib.Data.List.Nodup
import Mathlib.Data.List.Perm.Basic
import Mathlib.Order.Lattice

/-!
# The pages of a dictionary

A dictionary is a trie of pages.  An entry of a page is the tail of a key with its info, or a
character below which a sub page may be, with the info of the key that ends there.
-/

namespace Zebra.Dict

open List

variable {α ι : Type}

/-- What `indxp` points to; a string ends before `DICT_EOS`, an info has its length in front. -/
inductive Entry (α ι : Type) where
  | tail (str : List α) (info : List ι)
  | sub (subptr : Nat) (dc : α) (info : List ι)

/-- A page, its entries in the order of the directory. -/
structure Page (α ι : Type) where
  /-- `DICT_type`: 1 when the page has garbage -/
  type : Nat
  backptr : Nat
  entries : List (Entry α ι)

structure DictStruct (α ι : Type) where
  page : Nat → Page α ι
  root : Nat
  freelist : Nat
  calls : List (List ι)

def DictStruct.setPage (dict : DictStruct α ι) (ptr : Nat) (page : Page α ι) : DictStruct α ι :=
  { dict with page := Function.update dict.page ptr page }

def DictStruct.call (dict : DictStruct α ι) (infos : List (List ι)) : DictStruct α ι :=
  { dict with calls := dict.calls ++ infos }

def DictStruct.free (dict : DictStruct α ι) (ptr : Nat) : DictStruct α ι :=
  { dict.setPage ptr { dict.page ptr with backptr := dict.freelist } with freelist := ptr }

def FreeList (page : Nat → Page α ι) : Nat → List Nat → Prop
  | ptr, [] => ptr = 0
  | ptr, free :: rest => ptr = free ∧ free ≠ 0 ∧ FreeList page (page free).backptr rest

/-- A key with its info and the pages on the way to it. -/
structure Key (α ι : Type) where
  str : List α
  info : List ι
  pages : List Nat
  /-- Whether an entry with a sub page has the info. -/
  atSub : Bool

def Key.under (dc : α) (key : Key α ι) : Key α ι := { key with str := dc :: key.str }

def Key.through (ptr : Nat) (key : Key α ι) : Key α ι := { key with pages := ptr :: key.pages }

def Entry.subptrs : Entry α ι → List Nat
  | .tail _ _ => []
  | .sub subptr _ _ => if subptr = 0 then [] else [subptr]

/-- The keys of an entry, when those below a page are known; a length of 0 at a sub page is no
info. -/
def Entry.keys (below : Nat → List (Key α ι)) : Entry α ι → List (Key α ι)
  | .tail str info => [{ str, info, pages := [], atSub := false }]
  | .sub subptr dc info =>
    (if info = [] then [] else [{ str := [dc], info, pages := [], atSub := true }]) ++
      (if subptr = 0 then [] else (below subptr).map (Key.under dc))

section

variable (page : Nat → Page α ι)

def keysAt : Nat → Nat → List (Key α ι)
  | 0, _ => []
  | depth + 1, ptr => ((page ptr).entries.flatMap (Entry.keys (keysAt depth))).map (Key.through ptr)

def pagesAt : Nat → Nat → List Nat
  | 0, _ => []
  | depth + 1, ptr => ptr :: ((page ptr).entries.flatMap Entry.subptrs).flatMap (pagesAt depth)

def entriesKeys (depth : Nat) (entries : List (Entry α ι)) : List (Key α ι) :=
  entries.flatMap (Entry.keys (keysAt page depth))

def entriesPages (depth : Nat) (entries : List (Entry α ι)) : List Nat :=
  (entries.flatMap Entry.subptrs).flatMap (pagesAt page depth)

end

theorem flatMap_congr_mem {β γ : Type} {xs : List β} {f g : β → List γ}
    (same : ∀ x ∈ xs, f x = g x) : xs.flatMap f = xs.flatMap g := by
  rw [flatMap_def, flatMap_def, map_congr_left same]

theorem Entry.keys_congr {below below' : Nat → List (Key α ι)} {entry : Entry α ι}
    (same : ∀ subptr ∈ entry.subptrs, below' subptr = below subptr) :
    entry.keys below' = entry.keys below := by
  cases entry with
  | tail str info => rfl
  | sub subptr dc info =>
    rw [Entry.keys, Entry.keys]
    congr 1
    split
    · rfl
    next nonzero =>
      rw [same subptr]
      rw [Entry.subptrs, if_neg nonzero]
      exact mem_singleton_self subptr

theorem mem_subptrs {entries : List (Entry α ι)} {entry : Entry α ι} {subptr : Nat}
    (mem : entry ∈ entries) (sub : subptr ∈ entry.subptrs) :
    subptr ∈ entries.flatMap Entry.subptrs :=
  mem_flatMap.mpr ⟨entry, mem, sub⟩

theorem mem_pagesAt (page : Nat → Page α ι) (depth ptr : Nat) :
    ptr ∈ pagesAt page (depth + 1) ptr := .head _

variable [LinearOrder α]

/-- The order of the entries of a page; a character is in strings or in one entry with a sub
page. -/
def Entry.Before : Entry α ι → Entry α ι → Prop
  | .tail str _, .tail str' _ => str < str'
  | .tail str _, .sub _ dc _ => ∀ c ∈ str.head?, c < dc
  | .sub _ dc _, .tail str _ => ∃ c ∈ str.head?, dc < c
  | .sub _ dc _, .sub _ dc' _ => dc < dc'

/-- The pages below a page are at most `depth` deep and in order. -/
def WfAt (page : Nat → Page α ι) : Nat → Nat → Prop
  | 0, _ => False
  | depth + 1, ptr =>
    (page ptr).entries.Pairwise Entry.Before ∧
      ∀ subptr ∈ (page ptr).entries.flatMap Entry.subptrs, WfAt page depth subptr

/-- Every entry leads to a key, and so does every page below a page. -/
def LiveAt (page : Nat → Page α ι) : Nat → Nat → Prop
  | 0, _ => False
  | depth + 1, ptr =>
    ∀ entry ∈ (page ptr).entries,
      (∀ dc info, entry = .sub 0 dc info → info ≠ []) ∧
        ∀ subptr ∈ entry.subptrs, (page subptr).entries ≠ [] ∧ LiveAt page depth subptr

/-- The keys of a dictionary that is at most `depth` pages deep. -/
def DictStruct.keys (dict : DictStruct α ι) (depth : Nat) : List (Key α ι) :=
  if dict.root = 0 then [] else keysAt dict.page depth dict.root

/-- The pages of a dictionary that is at most `depth` pages deep. -/
def DictStruct.pages (dict : DictStruct α ι) (depth : Nat) : List Nat :=
  if dict.root = 0 then [] else pagesAt dict.page depth dict.root

/-- A dictionary: its pages are in order, and no page is in two places or on the free list. -/
structure Dictionary (α ι : Type) [LinearOrder α] extends DictStruct α ι where
  depth : Nat
  free : List Nat
  ordered : root ≠ 0 → WfAt page depth root
  nonzero : 0 ∉ toDictStruct.pages depth
  nodup : (toDictStruct.pages depth).Nodup
  freeList : FreeList page freelist free
  free_nodup : free.Nodup
  apart : ∀ ptr ∈ toDictStruct.pages depth, ptr ∉ free

section

variable {page page' : Nat → Page α ι}

/-- What is below a page is the same in two dictionaries. -/
structure SameBelow (page page' : Nat → Page α ι) (depth ptr : Nat) : Prop where
  keys : keysAt page' depth ptr = keysAt page depth ptr
  pages : pagesAt page' depth ptr = pagesAt page depth ptr
  wf : WfAt page depth ptr → WfAt page' depth ptr
  live : LiveAt page depth ptr → LiveAt page' depth ptr

theorem SameBelow.of_entries {depth ptr : Nat}
    (same : ∀ q ∈ pagesAt page depth ptr, (page' q).entries = (page q).entries) :
    SameBelow page page' depth ptr := by
  induction depth generalizing ptr with
  | zero => exact ⟨rfl, rfl, id, id⟩
  | succ depth induction =>
    have here : (page' ptr).entries = (page ptr).entries := same ptr mem_cons_self
    have below : ∀ subptr ∈ (page ptr).entries.flatMap Entry.subptrs,
        SameBelow page page' depth subptr := fun subptr mem =>
      induction fun q q_mem =>
        same q (.tail _ (mem_flatMap.mpr ⟨subptr, mem, q_mem⟩))
    refine ⟨?_, ?_, ?_, ?_⟩
    · rw [keysAt, keysAt, here]
      congr 1
      exact flatMap_congr_mem fun entry mem =>
        Entry.keys_congr fun subptr sub => (below subptr (mem_subptrs mem sub)).keys
    · rw [pagesAt, pagesAt, here]
      congr 1
      exact flatMap_congr_mem fun subptr mem => (below subptr mem).pages
    · rintro ⟨ordered, sub⟩
      exact ⟨here ▸ ordered, fun subptr mem =>
        (below subptr (here ▸ mem)).wf (sub subptr (here ▸ mem))⟩
    · intro live entry mem
      rw [here] at mem
      refine ⟨(live entry mem).1, fun subptr sub => ⟨?_, ?_⟩⟩
      · cases depth with
        | zero => exact absurd ((live entry mem).2 subptr sub).2 id
        | succ depth =>
          rw [same subptr (mem_cons_of_mem _ (mem_flatMap.mpr
            ⟨subptr, mem_subptrs mem sub, .head _⟩))]
          exact ((live entry mem).2 subptr sub).1
      · exact (below subptr (mem_subptrs mem sub)).live ((live entry mem).2 subptr sub).2

end

end Zebra.Dict
