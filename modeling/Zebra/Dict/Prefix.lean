import Zebra.Dict.Subtree

/-!
# Deletion of the keys with a prefix

What a call of `dict_del_string` with `sub_flag` does below a page: the keys with the string in
front are gone and all others are as before, and pages are on the free list that have no key left.
-/

namespace Zebra.Dict

open List Key

variable {α ι : Type} [LinearOrder α]

def covers (str : List α) (key : Key α ι) : Bool := str <+: key.str

/-- The info that the client function gets for a key: with length 0 where the key that is the string
itself is at an entry with a sub page. -/
def told (str : List α) (key : Key α ι) : List ι :=
  if key.str = str ∧ key.atSub = true then [] else key.info

def kept (str : List α) (keys : List (Key α ι)) : List (Key α ι) :=
  keys.filter fun key => !covers str key

/-- What the client function gets for the keys that are deleted. -/
def toldAll (str : List α) (keys : List (Key α ι)) : List (List ι) :=
  (keys.filter (covers str)).map (told str)

theorem kept_append (str : List α) (keys keys' : List (Key α ι)) :
    kept str (keys ++ keys') = kept str keys ++ kept str keys' := filter_append _ _

theorem toldAll_append (str : List α) (keys keys' : List (Key α ι)) :
    toldAll str (keys ++ keys') = toldAll str keys ++ toldAll str keys' := by
  rw [toldAll, filter_append, map_append, toldAll, toldAll]

theorem kept_through (str : List α) (ptr : Nat) (keys : List (Key α ι)) :
    kept str (keys.map (through ptr)) = (kept str keys).map (through ptr) :=
  filter_map

theorem toldAll_through (str : List α) (ptr : Nat) (keys : List (Key α ι)) :
    toldAll str (keys.map (through ptr)) = toldAll str keys := by
  rw [toldAll, filter_map, map_map]
  rfl

theorem covers_under (c : α) (str : List α) (key : Key α ι) :
    covers (c :: str) (under c key) = covers str key := by
  simp only [covers, under, cons_prefix_cons, true_and]

theorem told_under (c : α) (str : List α) (key : Key α ι) :
    told (c :: str) (under c key) = told str key := by
  simp only [told, under, List.cons.injEq, true_and]

theorem kept_under (c : α) (str : List α) (keys : List (Key α ι)) :
    kept (c :: str) (keys.map (under c)) = (kept str keys).map (under c) := by
  rw [kept, filter_map, kept]
  congr 2
  funext key
  exact congrArg not (covers_under c str key)

theorem toldAll_under (c : α) (str : List α) (keys : List (Key α ι)) :
    toldAll (c :: str) (keys.map (under c)) = toldAll str keys := by
  rw [toldAll, filter_map, map_map, toldAll]
  congr 1
  · funext key
    exact told_under c str key
  · congr 1
    funext key
    exact covers_under c str key

theorem kept_of_all {str : List α} {keys : List (Key α ι)}
    (all : ∀ key ∈ keys, covers str key = true) : kept str keys = [] := by
  refine filter_eq_nil_iff.mpr fun key mem => ?_
  rw [all key mem]
  exact Bool.noConfusion

theorem kept_of_none {str : List α} {keys : List (Key α ι)}
    (none : ∀ key ∈ keys, covers str key = false) : kept str keys = keys := by
  refine filter_eq_self.mpr fun key mem => ?_
  rw [none key mem]
  rfl

theorem toldAll_of_none {str : List α} {keys : List (Key α ι)}
    (none : ∀ key ∈ keys, covers str key = false) : toldAll str keys = [] := by
  rw [toldAll, filter_eq_nil_iff.mpr fun key mem => Bool.eq_false_iff.mp (none key mem)]
  rfl

/-- The string is not empty, or all keys of the page are in strings. -/
def Allowed (str : List α) (entries : List (Entry α ι)) : Prop :=
  str ≠ [] ∨ ∀ entry ∈ entries, entry.isSub = false

theorem Allowed.searchable {str : List α} {entries : List (Entry α ι)}
    (allowed : Allowed str entries)
    (ordered : entries.Pairwise Entry.Before) : Searchable str entries := by
  cases str with
  | nil => exact .of_tails (allowed.resolve_left fun ne => ne rfl)
  | cons c str => exact .of_before ordered

/-- An entry at which the search does not stop has no key with the string in front. -/
theorem covers_of_miss {str : List α} {entry : Entry α ι}
    (allowed : str ≠ [] ∨ entry.isSub = false) (miss : hits true str entry = false)
    (below : Nat → List (Key α ι)) : ∀ key ∈ entry.keys below, covers str key = false := by
  cases entry with
  | tail info _ =>
    intro key mem
    obtain rfl := mem_singleton.mp mem
    rw [hits, if_pos rfl] at miss
    exact miss
  | sub subptr dc info =>
    obtain nonempty | tail := allowed
    · intro key mem
      obtain ⟨rest, str_eq⟩ : ∃ rest, key.str = dc :: rest := by
        rw [Entry.keys, mem_append] at mem
        obtain mem | mem := mem
        · split at mem
          · cases mem
          · obtain rfl := mem_singleton.mp mem
            exact ⟨[], rfl⟩
        · split at mem
          · cases mem
          · obtain ⟨lower, -, rfl⟩ := mem_map.mp mem
            exact ⟨lower.str, rfl⟩
      cases str with
      | nil => exact absurd rfl nonempty
      | cons c str =>
        refine decide_eq_false fun front => of_decide_eq_false miss ?_
        rw [str_eq] at front
        exact congrArg some (cons_prefix_cons.mp front).1
    · exact Bool.noConfusion tail

/-- Strings at which the search stops are keys with the string in front. -/
theorem covers_of_hit {str info : List α} {value : List ι}
    (hit : hits true str (.tail info value : Entry α ι) = true) (below : Nat → List (Key α ι)) :
    ∀ key ∈ (Entry.tail info value).keys below, covers str key = true := by
  intro key mem
  obtain rfl := mem_singleton.mp mem
  rw [hits, if_pos rfl] at hit
  exact hit

theorem toldAll_of_hit {str info : List α} {value : List ι}
    (hit : hits true str (.tail info value : Entry α ι) = true) (below : Nat → List (Key α ι)) :
    toldAll str ((Entry.tail info value).keys below) = [value] := by
  rw [toldAll, filter_eq_self.mpr (covers_of_hit hit below)]
  exact congrArg (fun info => [info]) (if_neg fun same => Bool.noConfusion same.2)

/-- Without the strings at which the search stops, a page has the keys that stay. -/
theorem entriesKeys_strings {page : Nat → Page α ι} {depth : Nat} {str : List α}
    {entries : List (Entry α ι)} (allowed : Allowed str entries)
    (tails : ∀ entry ∈ entries, hits true str entry = true → entry.isSub = false) :
    entriesKeys page depth (entries.filter fun entry => !hits true str entry) =
        kept str (entriesKeys page depth entries) ∧
      (entries.filter (hits true str)).map Entry.info =
        toldAll str (entriesKeys page depth entries) := by
  induction entries with
  | nil => exact ⟨rfl, rfl⟩
  | cons entry entries induction =>
    obtain ⟨keys, calls⟩ := induction
      (allowed.imp id fun all entry mem => all entry (.tail _ mem))
      fun entry mem => tails entry (.tail _ mem)
    rw [entriesKeys_cons, kept_append, toldAll_append]
    cases hit : hits true str entry with
    | true =>
      rw [filter_cons_of_neg (by rw [hit]; exact Bool.noConfusion),
        filter_cons_of_pos hit, map_cons, keys, calls]
      cases entry with
      | tail info value =>
        refine ⟨?_, ?_⟩
        · rw [kept_of_all (covers_of_hit hit _)]
          rfl
        · rw [toldAll_of_hit hit]
          rfl
      | sub subptr dc info =>
        exact absurd (tails _ mem_cons_self hit) Bool.noConfusion
    | false =>
      have none := covers_of_miss (allowed.imp id fun all => all _ mem_cons_self) hit
        (keysAt page depth)
      rw [filter_cons_of_pos (by rw [hit]; rfl),
        filter_cons_of_neg (by rw [hit]; exact Bool.noConfusion), entriesKeys_cons, keys,
        calls, kept_of_none none, toldAll_of_none none]
      exact ⟨rfl, rfl⟩

/-- What has been done outside of a page and what is below it.  The pages `freed` are on the free
list; the pages `hanging` are not below the page any longer and `untold` is still to be told. -/
structure Released (str : List α) (dict dict' : DictStruct α ι) (depth ptr : Nat)
    (freed hanging : List Nat) (untold : List (List ι)) : Prop where
  elsewhere : ∀ q ∉ pagesAt dict.page depth ptr, dict'.page q = dict.page q
  hangs : ∀ q ∈ hanging, (dict'.page q).entries = (dict.page q).entries
  root : dict'.root = dict.root
  freeList : ∀ free, FreeList dict.page dict.freelist free →
    (∀ q ∈ free, q ∉ pagesAt dict.page depth ptr) →
      FreeList dict'.page dict'.freelist (freed ++ free)
  calls : ∃ infos, dict'.calls = dict.calls ++ infos ∧
    (infos ++ untold).Perm (toldAll str (keysAt dict.page depth ptr))

/-- The keys with the string in front are gone from a page. -/
structure Remains (str : List α) (dict dict' : DictStruct α ι) (depth ptr : Nat)
    (away : List Nat) : Prop where
  keys : keysAt dict'.page depth ptr = kept str (keysAt dict.page depth ptr)
  pages : (away ++ pagesAt dict'.page depth ptr).Perm (pagesAt dict.page depth ptr)
  wf : WfAt dict'.page depth ptr
  live : LiveAt dict.page depth ptr → LiveAt dict'.page depth ptr

/-- A page has been removed with all that is below it. -/
structure Gone (str : List α) (dict : DictStruct α ι) (depth ptr : Nat) (away : List Nat) :
    Prop where
  ptr_ne : ptr ≠ dict.root
  keys : kept str (keysAt dict.page depth ptr) = []
  pages : away.Perm (pagesAt dict.page depth ptr)

/-- What a call of `dict_del_string` has done when it returns `r`. -/
structure Deleted (str : List α) (dict dict' : DictStruct α ι) (depth ptr r : Nat)
    (freed hanging : List Nat) (untold : List (List ι)) : Prop where
  released : Released str dict dict' depth ptr freed hanging untold
  gone : r = 2 → Gone str dict depth ptr (freed ++ hanging)
  remains : r ≠ 2 → Remains str dict dict' depth ptr (freed ++ hanging)
  nonempty : r ≠ 2 → ptr ≠ dict.root → (dict'.page ptr).entries ≠ []

section

variable {str : List α} {dict dict' : DictStruct α ι} {depth ptr r : Nat} {freed hanging : List Nat}
  {untold : List (List ι)}

theorem Released.removeEmpty
    (released : Released str dict dict' (depth + 1) ptr freed hanging untold)
    (remains : Remains str dict dict' (depth + 1) ptr (freed ++ hanging)) (r_ne : r ≠ 2)
    (nonzero : ptr ≠ 0) (nodup : (pagesAt dict.page (depth + 1) ptr).Nodup) :
    ∃ freed', Deleted str dict (Dict.removeEmpty dict' ptr r).1 (depth + 1) ptr
      (Dict.removeEmpty dict' ptr r).2 freed' hanging untold := by
  rw [Dict.removeEmpty]
  split
  next empty =>
    have free := Freed.free dict' nonzero
    have below : pagesAt dict'.page (depth + 1) ptr = [ptr] := by
      rw [pagesAt_succ, empty.1, entriesPages_nil]
    have pages := remains.pages
    rw [below] at pages
    have distinct := pages.nodup_iff.mpr nodup
    refine ⟨ptr :: freed, ⟨?_, ?_, ?_, ?_, ?_⟩, fun _ => ⟨?_, ?_, ?_⟩, fun ne => absurd rfl ne,
      fun ne => absurd rfl ne⟩
    · intro q absent
      rw [free.elsewhere q, released.elsewhere q absent]
      rintro mem
      obtain rfl := mem_singleton.mp mem
      exact absent (mem_pagesAt _ _ _)
    · exact fun q mem => (free.entries q).trans (released.hangs q mem)
    · exact free.root.trans released.root
    · intro free' holds absent
      obtain ⟨one, perm, list⟩ := free.freeList
      obtain rfl := perm_singleton.mp perm
      refine list _ (released.freeList free' holds absent) fun q mem same => ?_
      obtain rfl := mem_singleton.mp same
      obtain mem | mem := mem_append.mp mem
      · refine (nodup_append'.mp distinct).2.2 (mem_append_left _ mem) ?_
        exact mem_singleton_self q
      · exact absent q mem (mem_pagesAt _ _ _)
    · obtain ⟨infos, calls, perm⟩ := released.calls
      exact ⟨infos, calls, perm⟩
    · exact fun same => empty.2 (same.trans released.root.symm)
    · rw [← remains.keys, keysAt_succ, empty.1]
      rfl
    · refine List.Perm.trans ?_ pages
      exact (perm_append_singleton ptr (freed ++ hanging)).symm
  next more =>
    refine ⟨freed, released, fun eq => absurd eq r_ne, fun _ => remains, fun _ ptr_ne empty => ?_⟩
    exact more ⟨empty, fun same => ptr_ne (same.trans released.root)⟩

/-- The pages that hang are put on the free list, too. -/
theorem Deleted.clear {last : DictStruct α ι}
    (deleted : Deleted str dict dict' depth ptr r freed hanging untold)
    (cleared : Freed dict' last hanging untold) (nodup : (pagesAt dict.page depth ptr).Nodup) :
    ∃ freed', Deleted str dict last depth ptr r freed' [] [] := by
  have inside : ∀ q ∈ hanging, q ∈ pagesAt dict.page depth ptr := by
    intro q mem
    by_cases two : r = 2
    · exact (deleted.gone two).pages.mem_iff.mp (mem_append_right _ mem)
    · exact (deleted.remains two).pages.mem_iff.mp
        (mem_append_left _ (mem_append_right _ mem))
  have apart : ∀ q ∈ freed, q ∉ hanging := by
    have distinct : (freed ++ hanging).Nodup := by
      by_cases two : r = 2
      · exact (deleted.gone two).pages.nodup_iff.mpr nodup
      · exact ((deleted.remains two).pages.nodup_iff.mpr nodup).of_append_left
    exact fun q mem mem' => (nodup_append'.mp distinct).2.2 mem mem'
  obtain ⟨more, perm, list⟩ := cleared.freeList
  have away : (more ++ freed ++ []).Perm (freed ++ hanging) := by
    rw [append_nil]
    exact (perm.append_right freed).trans perm_append_comm
  have same : SameBelow dict'.page last.page depth ptr :=
    SameBelow.of_entries fun q _ => cleared.entries q
  refine ⟨more ++ freed, ⟨?_, fun q mem => absurd mem not_mem_nil, ?_, ?_, ?_⟩, ?_, ?_, ?_⟩
  · intro q absent
    rw [cleared.elsewhere q fun mem => absent (inside q mem)]
    exact deleted.released.elsewhere q absent
  · exact cleared.root.trans deleted.released.root
  · intro free holds absent
    rw [append_assoc]
    refine list _ (deleted.released.freeList free holds absent) fun q mem => ?_
    obtain mem | mem := mem_append.mp mem
    · exact apart q mem
    · exact fun hang => absent q mem (inside q hang)
  · obtain ⟨infos, calls, told_perm⟩ := deleted.released.calls
    refine ⟨infos ++ untold, ?_, ?_⟩
    · rw [cleared.calls, calls, append_assoc]
    · rw [append_nil]
      exact told_perm
  · intro two
    obtain ⟨ptr_ne, keys, pages⟩ := deleted.gone two
    exact ⟨ptr_ne, keys, away.trans pages⟩
  · intro two
    obtain ⟨keys, pages, wf, live⟩ := deleted.remains two
    refine ⟨same.keys.trans keys, ?_, same.wf wf, fun before => same.live (live before)⟩
    rw [same.pages]
    exact (away.append_right _).trans pages
  · intro two ptr_ne
    rw [cleared.entries ptr]
    exact deleted.nonempty two ptr_ne

end

end Zebra.Dict
