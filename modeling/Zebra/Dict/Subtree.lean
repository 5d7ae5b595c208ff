import Zebra.Dict.Search

/-!
# Deletion of all below a page

`dict_del_subtree` calls the client function for every key below a page and puts all pages on the
free list, each of them once.
-/

namespace Zebra.Dict

open List Function

variable {α ι : Type}

theorem FreeList.congr {page page' : Nat → Page α ι} {ptr : Nat} {free : List Nat}
    (list : FreeList page ptr free) (same : ∀ q ∈ free, page' q = page q) :
    FreeList page' ptr free := by
  induction free generalizing ptr with
  | nil => exact list
  | cons first free induction =>
    obtain ⟨rfl, nonzero, rest⟩ := list
    refine ⟨rfl, nonzero, ?_⟩
    rw [same ptr mem_cons_self]
    exact induction rest fun q mem => same q (mem_cons_of_mem _ mem)

/-- Some pages have been put on the free list, after calls of the client function. -/
structure Freed (dict dict' : DictStruct α ι) (pages : List Nat) (infos : List (List ι)) :
    Prop where
  entries : ∀ q, (dict'.page q).entries = (dict.page q).entries
  elsewhere : ∀ q ∉ pages, dict'.page q = dict.page q
  root : dict'.root = dict.root
  calls : dict'.calls = dict.calls ++ infos
  freeList : ∃ freed, freed.Perm pages ∧ ∀ free, FreeList dict.page dict.freelist free →
    (∀ q ∈ free, q ∉ pages) → FreeList dict'.page dict'.freelist (freed ++ free)

namespace Freed

variable {dict first second : DictStruct α ι} {pages pages' : List Nat}
  {infos infos' : List (List ι)}

theorem refl (dict : DictStruct α ι) : Freed dict dict [] [] :=
  ⟨fun _ => rfl, fun _ _ => rfl, rfl, (append_nil _).symm,
    [], Perm.refl _, fun _ list _ => list⟩

theorem call (dict : DictStruct α ι) (infos : List (List ι)) :
    Freed dict (dict.call infos) [] infos :=
  ⟨fun _ => rfl, fun _ _ => rfl, rfl, rfl, [], Perm.refl _, fun _ list _ => list⟩

theorem trans (one : Freed dict first pages infos) (two : Freed first second pages' infos')
    (apart : ∀ q ∈ pages, q ∉ pages') : Freed dict second (pages ++ pages') (infos ++ infos') := by
  refine ⟨fun q => (two.entries q).trans (one.entries q), ?_, two.root.trans one.root, ?_, ?_⟩
  · intro q absent
    rw [mem_append, not_or] at absent
    rw [two.elsewhere q absent.2, one.elsewhere q absent.1]
  · rw [two.calls, one.calls, append_assoc]
  · obtain ⟨freed, perm, list⟩ := one.freeList
    obtain ⟨freed', perm', list'⟩ := two.freeList
    refine ⟨freed' ++ freed, (perm_append_comm).trans (perm.append perm'), ?_⟩
    intro free holds absent
    rw [append_assoc]
    refine list' _ (list free holds fun q mem in_pages =>
      absent q mem (mem_append_left _ in_pages)) ?_
    intro q mem
    obtain mem | mem := mem_append.mp mem
    · exact apart q (perm.mem_iff.mp mem)
    · exact fun in_pages => absent q mem (mem_append_right _ in_pages)

theorem free (dict : DictStruct α ι) {ptr : Nat} (nonzero : ptr ≠ 0) :
    Freed dict (dict.free ptr) [ptr] [] := by
  have page_eq : ∀ q, (dict.free ptr).page q =
      Function.update dict.page ptr { dict.page ptr with backptr := dict.freelist } q :=
        fun _ => rfl
  refine ⟨?_, ?_, rfl, (append_nil _).symm, [ptr], Perm.refl _, ?_⟩
  · intro q
    rw [page_eq]
    by_cases same : q = ptr
    · subst same
      rw [update_self]
    · rw [update_of_ne same]
  · intro q absent
    rw [page_eq, update_of_ne fun same => absent (mem_singleton.mpr same)]
  · intro free list absent
    refine ⟨rfl, nonzero, ?_⟩
    rw [page_eq, update_self]
    refine list.congr fun q mem => ?_
    rw [page_eq, update_of_ne fun same => absent q mem (mem_singleton.mpr same)]

theorem perm (freed : Freed dict first pages infos) (same : pages.Perm pages') :
    Freed dict first pages' infos := by
  obtain ⟨all, perm, list⟩ := freed.freeList
  refine ⟨freed.entries, fun q absent => freed.elsewhere q fun mem => absent (same.mem_iff.mp mem),
    freed.root, freed.calls, all, perm.trans same, ?_⟩
  intro free holds absent
  exact list free holds fun q mem in_all => absent q mem (same.mem_iff.mp in_all)

end Freed

theorem entriesPages_nil (page : Nat → Page α ι) (depth : Nat) : entriesPages page depth [] = [] :=
  rfl

theorem entriesPages_cons (page : Nat → Page α ι) (depth : Nat) (entry : Entry α ι)
    (entries : List (Entry α ι)) :
    entriesPages page depth (entry :: entries) =
      entry.subptrs.flatMap (pagesAt page depth) ++ entriesPages page depth entries := by
  rw [entriesPages, flatMap_cons, flatMap_append, entriesPages]

theorem entriesKeys_cons (page : Nat → Page α ι) (depth : Nat) (entry : Entry α ι)
    (entries : List (Entry α ι)) :
    entriesKeys page depth (entry :: entries) =
      entry.keys (keysAt page depth) ++ entriesKeys page depth entries := by
  rw [entriesKeys, flatMap_cons, entriesKeys]

theorem pagesAt_succ (page : Nat → Page α ι) (depth ptr : Nat) :
    pagesAt page (depth + 1) ptr = ptr :: entriesPages page depth (page ptr).entries := rfl

theorem keysAt_succ (page : Nat → Page α ι) (depth ptr : Nat) :
    keysAt page (depth + 1) ptr =
      (entriesKeys page depth (page ptr).entries).map (Key.through ptr) := rfl

theorem info_under (dc : α) (keys : List (Key α ι)) :
    (keys.map (Key.under dc)).map Key.info = keys.map Key.info := by
  rw [map_map]
  rfl

theorem info_through (ptr : Nat) (keys : List (Key α ι)) :
    (keys.map (Key.through ptr)).map Key.info = keys.map Key.info := by
  rw [map_map]
  rfl

variable [LinearOrder α]

variable (α ι) in
/-- All below a page can be deleted, in any dictionary where the page is `depth` deep. -/
def Deletes (fuel depth ptr : Nat) : Prop :=
  ∀ dict : DictStruct α ι, WfAt dict.page depth ptr → (pagesAt dict.page depth ptr).Nodup →
    0 ∉ pagesAt dict.page depth ptr →
      ∃ dict', dictDelSubtree fuel dict ptr = some dict' ∧
        Freed dict dict' (pagesAt dict.page depth ptr)
          ((keysAt dict.page depth ptr).map Key.info)

theorem delEntry_freed {page : Nat → Page α ι} {depth fuel : Nat} {now : DictStruct α ι}
    {entry : Entry α ι} (below : ∀ ptr, Deletes α ι fuel depth ptr)
    (same : ∀ q, (now.page q).entries = (page q).entries)
    (wf : ∀ subptr ∈ entry.subptrs, WfAt page depth subptr)
    (distinct : (entry.subptrs.flatMap (pagesAt page depth)).Nodup)
    (zero : 0 ∉ entry.subptrs.flatMap (pagesAt page depth)) :
    ∃ next, delEntry (dictDelSubtree fuel) now entry = some next ∧
      Freed now next (entry.subptrs.flatMap (pagesAt page depth))
        ((entry.keys (keysAt page depth)).map Key.info) := by
  cases entry with
  | tail str info => exact ⟨_, rfl, Freed.call now [info]⟩
  | sub subptr dc info =>
    have own : Freed now (if info ≠ [] then now.call [info] else now) []
        (if info = [] then [] else [info]) := by
      by_cases empty : info = []
      · rw [if_pos empty, if_neg (not_not.mpr empty)]
        exact Freed.refl now
      · rw [if_neg empty, if_pos empty]
        exact Freed.call now [info]
    have keys_eq : ((Entry.sub subptr dc info).keys (keysAt page depth)).map Key.info =
        (if info = [] then [] else [info]) ++
          (if subptr = 0 then [] else (keysAt page depth subptr).map Key.info) := by
      rw [Entry.keys, map_append]
      congr 1
      · split <;> rfl
      · split
        · rfl
        · exact info_under dc _
    rw [keys_eq, delEntry]
    by_cases none : subptr = 0
    · rw [if_neg (not_not.mpr none), if_pos none, Entry.subptrs, if_pos none, append_nil]
      exact ⟨_, rfl, own⟩
    · have subptrs_eq : (Entry.sub subptr dc info).subptrs = [subptr] := if_neg none
      rw [subptrs_eq, flatMap_singleton] at distinct zero
      rw [if_pos none, if_neg none, subptrs_eq, flatMap_singleton]
      have same_below : SameBelow page (if info ≠ [] then now.call [info] else now).page depth
          subptr := SameBelow.of_entries fun q _ => (own.entries q).trans (same q)
      obtain ⟨next, done, freed⟩ := below subptr _
        (same_below.wf (wf subptr (subptrs_eq ▸ mem_singleton_self subptr)))
        (same_below.pages ▸ distinct) (same_below.pages ▸ zero)
      rw [same_below.pages, same_below.keys] at freed
      exact ⟨next, done, own.trans freed fun q mem => absurd mem not_mem_nil⟩

theorem foldlM_delEntry_freed {page : Nat → Page α ι} {depth fuel : Nat}
    (below : ∀ ptr, Deletes α ι fuel depth ptr) {entries : List (Entry α ι)}
    {now : DictStruct α ι} (same : ∀ q, (now.page q).entries = (page q).entries)
    (wf : ∀ subptr ∈ entries.flatMap Entry.subptrs, WfAt page depth subptr)
    (distinct : (entriesPages page depth entries).Nodup)
    (zero : 0 ∉ entriesPages page depth entries) :
    ∃ last, entries.foldlM (delEntry (dictDelSubtree fuel)) now = some last ∧
      Freed now last (entriesPages page depth entries)
        ((entriesKeys page depth entries).map Key.info) := by
  induction entries generalizing now with
  | nil => exact ⟨now, rfl, Freed.refl now⟩
  | cons entry entries rest =>
    rw [entriesPages_cons] at distinct zero
    rw [mem_append, not_or] at zero
    obtain ⟨distinct_entry, distinct_rest, apart⟩ := nodup_append'.mp distinct
    obtain ⟨next, done, freed⟩ := delEntry_freed below same
      (fun subptr mem => wf subptr (mem_subptrs mem_cons_self mem)) distinct_entry zero.1
    obtain ⟨last, done', freed'⟩ := rest (fun q => (freed.entries q).trans (same q))
      (fun subptr mem => wf subptr (flatMap_cons ▸ mem_append_right _ mem))
      distinct_rest zero.2
    refine ⟨last, ?_, ?_⟩
    · rw [foldlM_cons, done]
      exact done'
    · rw [entriesPages_cons, entriesKeys_cons, map_append]
      exact freed.trans freed' fun q mem mem' => apart mem mem'

theorem dictDelSubtree_freed {depth fuel : Nat} (enough : depth ≤ fuel) (ptr : Nat) :
    Deletes α ι fuel depth ptr := by
  induction depth generalizing fuel ptr with
  | zero => exact fun dict wf => absurd wf id
  | succ depth induction =>
    intro dict wf nodup nonzero
    obtain ⟨fuel, rfl⟩ : ∃ less, fuel = less + 1 := ⟨fuel - 1, by omega⟩
    rw [pagesAt_succ, nodup_cons] at nodup
    rw [pagesAt_succ, mem_cons, not_or] at nonzero
    have below : ∀ subptr, Deletes α ι fuel depth subptr := induction (by omega)
    obtain ⟨last, done, freed⟩ := foldlM_delEntry_freed below (fun _ => rfl) wf.2 nodup.2
      nonzero.2
    refine ⟨last.free ptr, ?_, ?_⟩
    · rw [dictDelSubtree, if_neg (Ne.symm nonzero.1), done]
      rfl
    · rw [keysAt_succ, info_through, pagesAt_succ]
      have last_free := freed.trans (Freed.free last (Ne.symm nonzero.1)) fun q mem same => by
        obtain rfl := mem_singleton.mp same
        exact nodup.1 mem
      rw [append_nil] at last_free
      exact last_free.perm perm_append_comm

end Zebra.Dict
