import Zebra.Dict.Descent

/-!
# Subtree deletion

`dict_delete_subtree` deletes the keys with a prefix, tells the client function about each of them
and puts the pages that have no key left on the free list.
-/

namespace Zebra.Dict

open List
open Entry (sub subptrs)

variable {α ι : Type} [LinearOrder α]

section

variable {str : List α} {dict dict' : DictStruct α ι} {depth ptr : Nat}

theorem Released.of_edited {entries : List (Entry α ι)} {infos untold : List (List ι)}
    {hanging : List Nat} (edited : Edited dict dict' ptr entries infos)
    (perm : (infos ++ untold).Perm (toldAll str (keysAt dict.page (depth + 1) ptr)))
    (apart : ptr ∉ hanging) : Released str dict dict' (depth + 1) ptr [] hanging untold := by
  have elsewhere : ∀ q ∉ pagesAt dict.page (depth + 1) ptr, dict'.page q = dict.page q := by
    intro q absent
    refine edited.elsewhere q ?_
    rintro rfl
    exact absent (mem_pagesAt _ _ _)
  refine ⟨elsewhere, ?_, edited.root, ?_, infos, edited.calls, perm⟩
  · intro q mem
    rw [edited.elsewhere q]
    rintro rfl
    exact apart mem
  · intro free holds absent
    rw [nil_append, edited.freelist]
    exact holds.congr fun q mem => elsewhere q (absent q mem)

/-- The page from which a call has gone on to a page below it. -/
theorem Released.of_below {c : α} {last : DictStruct α ι} {subptr r : Nat} {freed : List Nat}
    {entries : List (Entry α ι)} (on : OnPage dict (depth + 1) ptr)
    (inside : ∀ q ∈ pagesAt dict.page depth subptr,
      q ∈ entriesPages dict.page depth (dict.page ptr).entries)
    (below : Deleted str dict dict' depth subptr r freed [] [])
    (edited : Edited dict' last ptr entries [])
    (toldAll_eq : toldAll (c :: str) (keysAt dict.page (depth + 1) ptr) =
      toldAll str (keysAt dict.page depth subptr)) :
    Released (c :: str) dict last (depth + 1) ptr freed [] [] := by
  have freed_inside : ∀ q ∈ freed, q ∈ pagesAt dict.page depth subptr := by
    intro q mem
    by_cases two : r = 2
    · exact (below.gone two).pages.mem_iff.mp (mem_append_left _ mem)
    · exact (below.remains two).pages.mem_iff.mp
        (mem_append_left _ (mem_append_left _ mem))
  refine ⟨?_, fun q mem => absurd mem not_mem_nil, ?_, ?_, ?_⟩
  · intro q absent
    rw [edited.elsewhere q, below.released.elsewhere q]
    · exact fun mem => absent (.tail _ (inside q mem))
    · rintro rfl
      exact absent (mem_pagesAt _ _ _)
  · exact edited.root.trans below.released.root
  · intro free holds absent
    rw [edited.freelist]
    refine FreeList.congr (below.released.freeList free holds fun q mem sub =>
      absent q mem (.tail _ (inside q sub))) fun q mem => edited.elsewhere q ?_
    rintro rfl
    obtain mem | mem := mem_append.mp mem
    · exact on.notMem (inside q (freed_inside q mem))
    · exact absent q mem (mem_pagesAt _ _ _)
  · obtain ⟨infos, calls, perm⟩ := below.released.calls
    refine ⟨infos, ?_, toldAll_eq ▸ perm⟩
    rw [edited.calls, append_nil, calls]

omit [LinearOrder α] in
theorem setPage_self (dict : DictStruct α ι) (ptr : Nat) :
    (dict.setPage ptr (dict.page ptr)).call [] = dict := by
  rw [DictStruct.call, DictStruct.setPage, Function.update_eq_self, append_nil]

theorem Searchable.miss {entries front back : List (Entry α ι)} {subptr : Nat} {dc : α}
    {info : List ι} (searchable : Searchable str entries)
    (entries_eq : entries = front ++ .sub subptr dc info :: back) (head : str.head? = some dc) :
    ∀ entry ∈ front ++ back, hits true str entry = false := by
  have sub_hit : hits true str (.sub subptr dc info : Entry α ι) = true := decide_eq_true head
  have apart := searchable.apart
  rw [entries_eq, pairwise_append, pairwise_cons] at apart
  intro entry mem
  refine Bool.eq_false_iff.mpr fun hit => ?_
  obtain mem | mem := mem_append.mp mem
  · exact Bool.noConfusion (apart.2.2 entry mem _ mem_cons_self hit sub_hit).2
  · exact Bool.noConfusion (apart.2.1.1 entry mem sub_hit hit).1

/-- A page at which the search stops at an entry with a sub page. -/
structure Stopped (str : List α) (dict : DictStruct α ι) (depth ptr : Nat)
    (front back : List (Entry α ι)) (subptr : Nat) (dc : α) (info : List ι) : Prop where
  on : OnPage dict (depth + 1) ptr
  entries : (dict.page ptr).entries = front ++ .sub subptr dc info :: back
  outside : ∀ entry ∈ front ++ back, ∀ key ∈ entry.keys (keysAt dict.page depth),
    covers str key = false

namespace Stopped

variable {front back : List (Entry α ι)} {subptr : Nat} {dc : α} {info : List ι}

theorem pages_eq (stopped : Stopped str dict depth ptr front back subptr dc info) :
    entriesPages dict.page depth (dict.page ptr).entries =
      entriesPages dict.page depth front ++
        ((sub subptr dc info).subptrs.flatMap (pagesAt dict.page depth) ++
          entriesPages dict.page depth back) := by
  rw [stopped.entries, entriesPages_append, entriesPages_cons]

theorem toldAll_eq (stopped : Stopped str dict depth ptr front back subptr dc info) :
    toldAll str (keysAt dict.page (depth + 1) ptr) =
      toldAll str ((sub subptr dc info).keys (keysAt dict.page depth)) := by
  have none : ∀ part : List (Entry α ι), (∀ entry ∈ part, entry ∈ front ++ back) →
      toldAll str (entriesKeys dict.page depth part) = [] := by
    intro part inside
    refine toldAll_of_none fun key mem => ?_
    obtain ⟨entry, entry_mem, key_mem⟩ := mem_flatMap.mp mem
    exact stopped.outside entry (inside entry entry_mem) key key_mem
  rw [keysAt_succ, toldAll_through, stopped.entries, entriesKeys_append, entriesKeys_cons,
    toldAll_append, toldAll_append, none front fun entry mem => mem_append_left _ mem,
    none back fun entry mem => mem_append_right _ mem, nil_append, append_nil]

theorem child (stopped : Stopped str dict depth ptr front back subptr dc info)
    (nonzero : subptr ≠ 0) : OnPage dict depth subptr := by
  have subptrs : (sub subptr dc info).subptrs = [subptr] := if_neg nonzero
  have pages := stopped.pages_eq
  rw [subptrs, flatMap_singleton] at pages
  have nodup := (nodup_cons.mp stopped.on.nodup).2
  have zero : 0 ∉ entriesPages dict.page depth (dict.page ptr).entries :=
    fun mem => stopped.on.nonzero (.tail _ mem)
  have root : dict.root ∉ entriesPages dict.page depth (dict.page ptr).entries := by
    obtain same | absent := stopped.on.root
    · exact same ▸ stopped.on.notMem
    · exact fun mem => absent (.tail _ mem)
  change (entriesPages dict.page depth (dict.page ptr).entries).Nodup at nodup
  rw [pages] at nodup zero root
  refine ⟨stopped.on.wf.2 subptr ?_, nodup.of_append_right.of_append_left, ?_, .inr ?_⟩
  · rw [stopped.entries]
    exact mem_subptrs (mem_append_right _ mem_cons_self)
      (subptrs ▸ mem_singleton_self subptr)
  · exact fun mem => zero (mem_append_right _ (mem_append_left _ mem))
  · exact fun mem => root (mem_append_right _ (mem_append_left _ mem))

theorem child_inside (stopped : Stopped str dict depth ptr front back subptr dc info)
    (nonzero : subptr ≠ 0) : ∀ q ∈ pagesAt dict.page depth subptr,
      q ∈ entriesPages dict.page depth (dict.page ptr).entries := by
  have subptrs : (sub subptr dc info).subptrs = [subptr] := if_neg nonzero
  intro q mem
  rw [stopped.pages_eq, subptrs, flatMap_singleton]
  exact mem_append_right _ (mem_append_left _ mem)

theorem child_ne_root (stopped : Stopped str dict depth ptr front back subptr dc info)
    (nonzero : subptr ≠ 0) : subptr ≠ dict.root := by
  intro same
  have wf := (stopped.child nonzero).wf
  cases depth with
  | zero => exact wf
  | succ depth =>
    have inside := stopped.child_inside nonzero subptr (mem_pagesAt _ _ _)
    obtain here | absent := stopped.on.root
    · exact stopped.on.notMem (here.trans same.symm ▸ inside)
    · exact absent (.tail _ (same ▸ inside))

/-- What is below other entries is the same where only the sub page has changed. -/
theorem same_outside (stopped : Stopped str dict depth ptr front back subptr dc info)
    {last : DictStruct α ι}
    (elsewhere : ∀ q ≠ ptr,
      q ∉ (sub subptr dc info).subptrs.flatMap (pagesAt dict.page depth) →
        last.page q = dict.page q) :
    SameEntries dict.page last.page depth front ∧ SameEntries dict.page last.page depth back := by
  have nodup : (entriesPages dict.page depth (dict.page ptr).entries).Nodup :=
    (nodup_cons.mp stopped.on.nodup).2
  have absent := stopped.on.notMem
  rw [stopped.pages_eq] at nodup absent
  obtain ⟨-, rest, apart⟩ := nodup_append'.mp nodup
  refine ⟨.of_entries fun q mem => ?_, .of_entries fun q mem => ?_⟩
  · rw [elsewhere q]
    · rintro rfl
      exact absent (mem_append_left _ mem)
    · exact fun sub => apart mem (mem_append_left _ sub)
  · rw [elsewhere q]
    · rintro rfl
      exact absent (mem_append_right _ (mem_append_right _ mem))
    · exact fun sub => (nodup_append'.mp rest).2.2 sub mem

end Stopped

end

omit [LinearOrder α] in
theorem str_ne_nil {page : Nat → Page α ι} {depth ptr : Nat} :
    ∀ key ∈ keysAt page depth ptr, key.atSub = true → key.str ≠ [] := by
  intro key mem at_sub
  cases depth with
  | zero => cases mem
  | succ depth =>
    obtain ⟨inner, inner_mem, rfl⟩ := mem_map.mp mem
    obtain ⟨entry, -, entry_mem⟩ := mem_flatMap.mp inner_mem
    change inner.str ≠ []
    cases entry with
    | tail info value =>
      obtain rfl := mem_singleton.mp entry_mem
      exact Bool.noConfusion at_sub
    | sub subptr dc info =>
      rw [Entry.keys, mem_append] at entry_mem
      obtain entry_mem | entry_mem := entry_mem
      · split at entry_mem
        · cases entry_mem
        · obtain rfl := mem_singleton.mp entry_mem
          exact cons_ne_nil _ _
      · split at entry_mem
        · cases entry_mem
        · obtain ⟨lower, -, rfl⟩ := mem_map.mp entry_mem
          exact cons_ne_nil _ _

/-- All keys below a page begin with the empty string. -/
theorem toldAll_nil (page : Nat → Page α ι) (depth ptr : Nat) :
    toldAll [] (keysAt page depth ptr) = (keysAt page depth ptr).map Key.info := by
  have all : ∀ key ∈ keysAt page depth ptr, covers [] key = true :=
    fun key _ => decide_eq_true nil_prefix
  rw [toldAll, filter_eq_self.mpr all]
  refine map_congr_left fun key mem => if_neg ?_
  rintro ⟨empty, at_sub⟩
  exact str_ne_nil key mem at_sub empty

omit [LinearOrder α] in
theorem keys_sub (below : Nat → List (Key α ι)) (subptr : Nat) (dc : α) (info : List ι) :
    (sub subptr dc info).keys below =
      (if info = [] then [] else [{ str := [dc], info, pages := [], atSub := true }]) ++
        (if subptr = 0 then [] else (below subptr).map (Key.under dc)) := rfl

section

variable {dict : DictStruct α ι} {depth ptr subptr : Nat} {front back : List (Entry α ι)} {c : α}
  {info : List ι}

/-- What the client function gets for the key that ends at the entry. -/
def toldHere (info : List ι) : List (List ι) := if info = [] then [] else [[]]

theorem toldAll_sub (page : Nat → Page α ι) :
    toldAll [c] ((sub subptr c info).keys (keysAt page depth)) =
      toldHere info ++
        (if subptr = 0 then [] else (keysAt page depth subptr).map Key.info) := by
  rw [keys_sub, toldAll_append, toldHere]
  congr 1
  · split
    · rfl
    · have own : covers [c] { str := [c], info, pages := [], atSub := true } = true :=
        decide_eq_true (prefix_refl [c])
      rw [toldAll, filter_cons_of_pos own]
      exact congrArg (fun told => [told]) (if_pos ⟨rfl, rfl⟩)
  · split
    · rfl
    · rw [toldAll_under, toldAll_nil]

omit [LinearOrder α] in
theorem Edited.removeEntry (dict : DictStruct α ι) (ptr mid : Nat) :
    Edited dict (Dict.removeEntry dict ptr mid) ptr ((dict.page ptr).entries.eraseIdx mid) [] :=
  Edited.setPage dict ptr _

omit [LinearOrder α] in
theorem Edited.wipeInfo
    (entries_eq : (dict.page ptr).entries = front ++ .sub subptr c info :: back) :
    Edited dict (Dict.wipeInfo true dict ptr front.length subptr c info) ptr
      (front ++ .sub subptr c [] :: back) (toldHere info) := by
  rw [Dict.wipeInfo, toldHere]
  by_cases empty : info = []
  · subst empty
    rw [if_neg (not_not.mpr rfl), if_pos rfl, ← entries_eq]
    exact Edited.refl dict ptr
  · rw [if_pos empty, if_neg empty, ← set_middle front back (.sub subptr c info), ← entries_eq]
    exact (Edited.setPage dict ptr _).call [[]]

theorem covers_sub (below : Nat → List (Key α ι)) :
    ∀ key ∈ (sub subptr c info).keys below, covers [c] key = true := by
  intro key mem
  rw [keys_sub, mem_append] at mem
  obtain mem | mem := mem
  · split at mem
    · cases mem
    · obtain rfl := mem_singleton.mp mem
      exact decide_eq_true (prefix_refl [c])
  · split at mem
    · cases mem
    · obtain ⟨lower, -, rfl⟩ := mem_map.mp mem
      rw [covers_under]
      exact decide_eq_true nil_prefix

/-- Where the string ends at an entry, the entry is removed and all below it deleted. -/
theorem endString_deleted {fuel : Nat}
    (stopped : Stopped [c] dict depth ptr front back subptr c info) (enough : depth ≤ fuel) :
    ∃ last r freed, endString true fuel dict ptr 0 front.length subptr c info = some (last, r) ∧
      Deleted [c] dict last (depth + 1) ptr r freed [] [] := by
  have ptr_ne : ptr ≠ 0 := by
    rintro rfl
    exact stopped.on.nonzero (mem_pagesAt _ _ _)
  have hang_apart : ptr ∉ (sub subptr c info).subptrs.flatMap (pagesAt dict.page depth) := by
    intro mem
    have absent := stopped.on.notMem
    rw [stopped.pages_eq] at absent
    exact absent (mem_append_right _ (mem_append_left _ mem))
  -- the entry is wiped out and removed
  have edited := Edited.wipeInfo (c := c) stopped.entries
  have removed := Edited.removeEntry
    (Dict.wipeInfo true dict ptr front.length subptr c info) ptr front.length
  rw [edited.entries, erase_middle] at removed
  have both := edited.trans removed
  rw [append_nil] at both
  have untold_eq := stopped.toldAll_eq.trans (toldAll_sub dict.page)
  have perm := Perm.refl (toldAll [c] (keysAt dict.page (depth + 1) ptr))
  nth_rewrite 1 [untold_eq] at perm
  have released := Released.of_edited both perm hang_apart
  obtain ⟨same_front, same_back⟩ := stopped.same_outside fun q ne _ => both.elsewhere q ne
  have replaced : Replaced [c] dict.page
      (Dict.removeEntry (Dict.wipeInfo true dict ptr front.length subptr c info) ptr
        front.length).page depth subptr c info []
      ((sub subptr c info).subptrs.flatMap (pagesAt dict.page depth)) := by
    refine ⟨?_, ?_, fun next mem => absurd mem not_mem_nil,
      fun _ entry mem => absurd mem not_mem_nil, .inl rfl⟩
    · exact (kept_of_all (covers_sub _)).symm
    · rw [entriesPages_nil, append_nil]
  have remains := Remains.of_middle stopped.on stopped.entries both.entries stopped.outside
    same_front same_back replaced
  -- an empty page is removed, then what was below the entry
  have r_ne : (if info ≠ [] then 1 else 0) ≠ 2 := by
    split <;> decide
  obtain ⟨freed, deleted⟩ := released.removeEmpty remains r_ne ptr_ne stopped.on.nodup
  rw [endString]
  dsimp only
  rw [if_pos rfl]
  by_cases zero : subptr = 0
  · rw [if_neg fun both => both.1 zero]
    rw [if_pos zero, subptrs, if_pos zero] at deleted
    exact ⟨_, _, freed, rfl, deleted⟩
  · rw [if_pos ⟨zero, rfl⟩]
    rw [if_neg zero, subptrs, if_neg zero, flatMap_singleton] at deleted
    have child := stopped.child zero
    have same := SameBelow.of_entries fun q mem => deleted.released.hangs q mem
    obtain ⟨last, done, cleared⟩ := dictDelSubtree_freed enough subptr _ (same.wf child.wf)
      (same.pages ▸ child.nodup) (same.pages ▸ child.nonzero)
    rw [same.pages, same.keys] at cleared
    obtain ⟨freed', deleted'⟩ := deleted.clear cleared stopped.on.nodup
    rw [done]
    exact ⟨_, _, freed', rfl, deleted'⟩

/-- The key that ends at the entry does not begin with a longer string. -/
theorem covers_own {str : List α} (longer : str ≠ []) :
    ∀ key ∈ if info = [] then [] else
      [({ str := [c], info, pages := [], atSub := true } : Key α ι)],
      covers (c :: str) key = false := by
  intro key mem
  split at mem
  · cases mem
  · obtain rfl := mem_singleton.mp mem
    refine decide_eq_false fun front => longer ?_
    exact prefix_nil.mp (cons_prefix_cons.mp front).2

theorem kept_sub {str : List α} (longer : str ≠ []) (page : Nat → Page α ι) :
    kept (c :: str) ((sub subptr c info).keys (keysAt page depth)) =
      (if info = [] then [] else [{ str := [c], info, pages := [], atSub := true }]) ++
        (if subptr = 0 then [] else (kept str (keysAt page depth subptr)).map (Key.under c)) := by
  rw [keys_sub, kept_append, kept_of_none (covers_own longer)]
  congr 1
  split
  · rfl
  · exact kept_under c str _

theorem toldAll_longer {str : List α} (longer : str ≠ []) (page : Nat → Page α ι) :
    toldAll (c :: str) ((sub subptr c info).keys (keysAt page depth)) =
      if subptr = 0 then [] else toldAll str (keysAt page depth subptr) := by
  rw [keys_sub, toldAll_append, toldAll_of_none (covers_own longer), nil_append]
  split
  · rfl
  · exact toldAll_under c str _

omit [LinearOrder α] in
theorem entriesKeys_singleton (page : Nat → Page α ι) (entry : Entry α ι) :
    entriesKeys page depth [entry] = entry.keys (keysAt page depth) := by
  rw [entriesKeys_cons]
  exact append_nil _

omit [LinearOrder α] in
theorem entriesPages_singleton (page : Nat → Page α ι) (entry : Entry α ι) :
    entriesPages page depth [entry] = entry.subptrs.flatMap (pagesAt page depth) := by
  rw [entriesPages_cons, entriesPages_nil, append_nil]

theorem afterSub_none {str : List α} (longer : str ≠ [])
    (stopped : Stopped (c :: str) dict depth ptr front back 0 c info) :
    ∃ freed, Deleted (c :: str) dict (afterSub dict ptr front.length 0 c info).1 (depth + 1) ptr
      (afterSub dict ptr front.length 0 c info).2 freed [] [] := by
  have ptr_ne : ptr ≠ 0 := by
    rintro rfl
    exact stopped.on.nonzero (mem_pagesAt _ _ _)
  have perm : ([] ++ []).Perm (toldAll (c :: str) (keysAt dict.page (depth + 1) ptr)) := by
    rw [stopped.toldAll_eq, toldAll_longer longer, if_pos rfl]
    exact Perm.refl _
  have released := Released.of_edited (Edited.refl dict ptr) perm not_mem_nil
  obtain ⟨same_front, same_back⟩ := stopped.same_outside fun q _ _ => Eq.refl (dict.page q)
  have replaced : Replaced (c :: str) dict.page dict.page depth 0 c info [.sub 0 c info] [] := by
    refine ⟨?_, ?_, fun next mem => absurd mem not_mem_nil, ?_, .inr ⟨0, info, rfl⟩⟩
    · rw [entriesKeys_singleton, kept_sub longer, keys_sub, if_pos rfl, if_pos rfl]
    · rw [entriesPages_singleton]
      exact Perm.refl _
    · intro live entry mem
      obtain rfl := mem_singleton.mp mem
      exact live
  have remains := Remains.of_middle stopped.on stopped.entries stopped.entries stopped.outside
    same_front same_back replaced
  rw [afterSub]
  rw [if_neg (show 0 ≠ 2 by decide)]
  exact released.removeEmpty remains (by decide) ptr_ne stopped.on.nodup

theorem below_deleted {str : List α} {first last : DictStruct α ι} {r r' : Nat} {freed : List Nat}
    (entries : List (Entry α ι)) (longer : str ≠ [])
    (stopped : Stopped (c :: str) dict depth ptr front back subptr c info) (nonzero : subptr ≠ 0)
    (below : Deleted str dict first depth subptr r freed [] [])
    (edited : Edited first last ptr (front ++ (entries ++ back)) [])
    (replaced : Replaced (c :: str) dict.page last.page depth subptr c info entries freed)
    (r_ne : r' ≠ 2) :
    ∃ freed', Deleted (c :: str) dict (removeEmpty last ptr r').1 (depth + 1) ptr
      (removeEmpty last ptr r').2 freed' [] [] := by
  have ptr_ne : ptr ≠ 0 := by
    rintro rfl
    exact stopped.on.nonzero (mem_pagesAt _ _ _)
  have told_eq : toldAll (c :: str) (keysAt dict.page (depth + 1) ptr) =
      toldAll str (keysAt dict.page depth subptr) := by
    rw [stopped.toldAll_eq, toldAll_longer longer, if_neg nonzero]
  have released := Released.of_below stopped.on (stopped.child_inside nonzero) below edited told_eq
  have elsewhere : ∀ q ≠ ptr,
      q ∉ (sub subptr c info).subptrs.flatMap (pagesAt dict.page depth) →
        last.page q = dict.page q := by
    intro q ne absent
    rw [subptrs, if_neg nonzero, flatMap_singleton] at absent
    exact (edited.elsewhere q ne).trans (below.released.elsewhere q absent)
  obtain ⟨same_front, same_back⟩ := stopped.same_outside elsewhere
  have remains := Remains.of_middle stopped.on stopped.entries edited.entries stopped.outside
    same_front same_back replaced
  rw [← append_nil freed] at remains
  exact released.removeEmpty remains r_ne ptr_ne stopped.on.nodup

theorem afterSub_deleted {str : List α} {first : DictStruct α ι} {r : Nat} {freed : List Nat}
    (longer : str ≠ []) (stopped : Stopped (c :: str) dict depth ptr front back subptr c info)
    (nonzero : subptr ≠ 0) (below : Deleted str dict first depth subptr r freed [] []) :
    ∃ freed', Deleted (c :: str) dict (afterSub first ptr front.length r c info).1 (depth + 1) ptr
      (afterSub first ptr front.length r c info).2 freed' [] [] := by
  have subptrs : (sub subptr c info).subptrs = [subptr] := if_neg nonzero
  have here : (first.page ptr).entries = front ++ .sub subptr c info :: back := by
    rw [below.released.elsewhere ptr fun mem =>
      stopped.on.notMem (stopped.child_inside nonzero ptr mem)]
    exact stopped.entries
  rw [afterSub]
  by_cases two : r = 2
  · rw [if_pos two]
    obtain ⟨-, keys, pages⟩ := below.gone two
    rw [append_nil] at pages
    by_cases empty : info = []
    · -- the entry only leads to the page that has been removed
      rw [if_neg (not_not.mpr empty), here, erase_middle]
      refine below_deleted [] longer stopped nonzero below (Edited.setPage first ptr _) ⟨?_, ?_,
        fun next mem => absurd mem not_mem_nil, fun _ entry mem => absurd mem not_mem_nil,
        .inl rfl⟩ (by decide)
      · rw [kept_sub longer, if_pos empty, if_neg nonzero, keys]
        rfl
      · rw [subptrs, flatMap_singleton, entriesPages_nil, append_nil]
        exact pages
    · rw [if_pos empty, here, set_middle]
      refine below_deleted [.sub 0 c info] longer stopped nonzero below
        (Edited.setPage first ptr _) ⟨?_, ?_, fun next mem => absurd mem not_mem_nil, ?_,
          .inr ⟨0, info, rfl⟩⟩ (by decide)
      · rw [kept_sub longer, entriesKeys_singleton, keys_sub, if_pos rfl, if_neg nonzero, keys]
        rfl
      · rw [subptrs, flatMap_singleton, entriesPages_singleton]
        exact (append_nil freed).symm ▸ pages
      · intro _ entry mem
        obtain rfl := mem_singleton.mp mem
        refine ⟨?_, fun next mem => absurd mem not_mem_nil⟩
        rintro dc value same rfl
        injection same with _ _ value_eq
        exact empty value_eq
  · rw [if_neg two]
    obtain ⟨keys, pages, wf, live⟩ := below.remains two
    rw [append_nil] at pages
    have edited := Edited.refl first ptr
    rw [here] at edited
    refine below_deleted [.sub subptr c info] longer stopped nonzero below edited
      ⟨?_, ?_, ?_, ?_, .inr ⟨subptr, info, rfl⟩⟩ two
    · rw [kept_sub longer, entriesKeys_singleton, keys_sub, if_neg nonzero, if_neg nonzero, keys]
    · rw [entriesPages_singleton, subptrs, flatMap_singleton, flatMap_singleton]
      exact pages
    · intro next mem
      rw [flatMap_singleton, subptrs] at mem
      obtain rfl := mem_singleton.mp mem
      exact wf
    · intro before entry mem
      obtain rfl := mem_singleton.mp mem
      refine ⟨before.1, fun next mem => ?_⟩
      obtain rfl := mem_singleton.mp (subptrs ▸ mem)
      exact ⟨below.nonempty two (stopped.child_ne_root nonzero), live (before.2 next mem).2⟩

end

section

variable {dict : DictStruct α ι} {depth ptr fuel : Nat}

theorem dictDelPage_deleted {str : List α}
    {below : DictStruct α ι → Nat → Option (DictStruct α ι × Nat)}
    (on : OnPage dict (depth + 1) ptr) (allowed : Allowed str (dict.page ptr).entries)
    (enough : depth ≤ fuel)
    (descend : ∀ c tail, str = c :: tail → tail ≠ [] → below dict 0 = some (dict, 0) ∧
      ∀ subptr, OnPage dict depth subptr → ∃ first r freed, below dict subptr = some (first, r) ∧
        Deleted tail dict first depth subptr r freed [] []) :
    ∃ last r freed, dictDelPage true fuel below str dict ptr = some (last, r) ∧
      Deleted str dict last (depth + 1) ptr r freed [] [] := by
  have ptr_ne : ptr ≠ 0 := by
    rintro rfl
    exact on.nonzero (mem_pagesAt _ _ _)
  have searchable := allowed.searchable on.wf.1
  rw [dictDelPage, if_neg ptr_ne]
  dsimp only
  have looked := look_result searchable (Nat.lt_succ_self _)
  cases looked with
  | strings found kept_eq calls tails r_ne =>
    rw [found]
    dsimp only
    have edited := (Edited.setPage dict ptr
      (look true str ((dict.page ptr).entries.length + 1) (dict.page ptr)).page).call
        (look true str ((dict.page ptr).entries.length + 1) (dict.page ptr)).calls
    rw [kept_eq, nil_append] at edited
    have perm : ((look true str ((dict.page ptr).entries.length + 1) (dict.page ptr)).calls ++
        []).Perm (toldAll str (keysAt dict.page (depth + 1) ptr)) := by
      rw [append_nil, keysAt_succ, toldAll_through, ← (entriesKeys_strings allowed tails).2]
      exact calls
    have released := Released.of_edited edited perm not_mem_nil
    have remains := Remains.of_strings on allowed tails edited
    obtain ⟨freed, deleted⟩ := released.removeEmpty remains r_ne ptr_ne on.nodup
    exact ⟨_, _, freed, rfl, deleted⟩
  | stopped front back subptr dc info entries head looked_eq =>
    rw [looked_eq]
    dsimp only
    rw [setPage_self]
    have outside : ∀ entry ∈ front ++ back, ∀ key ∈ entry.keys (keysAt dict.page depth),
        covers str key = false := by
      intro entry mem
      refine covers_of_miss (Or.inl ?_) (searchable.miss entries head entry mem) _
      rintro rfl
      cases head
    have stopped : Stopped str dict depth ptr front back subptr dc info := ⟨on, entries, outside⟩
    cases str with
    | nil => cases head
    | cons c tail =>
      obtain rfl := Option.some.inj head
      rw [tail_cons]
      split
      next ends =>
        subst ends
        exact endString_deleted stopped enough
      next longer =>
        obtain ⟨none, some⟩ := descend c tail rfl longer
        by_cases zero : subptr = 0
        · subst zero
          obtain ⟨freed, deleted⟩ := afterSub_none longer stopped
          rw [none]
          exact ⟨_, _, freed, rfl, deleted⟩
        · obtain ⟨first, r, freed, done, deleted⟩ := some subptr (stopped.child zero)
          obtain ⟨freed', deleted'⟩ := afterSub_deleted longer stopped zero deleted
          rw [done]
          exact ⟨_, _, freed', rfl, deleted'⟩

theorem dictDelString_zero (str : List α) (dict : DictStruct α ι) :
    dictDelString true fuel str dict 0 = some (dict, 0) := by
  cases str with
  | nil => rw [dictDelString, dictDelPage, if_pos rfl]
  | cons c str => rw [dictDelString, dictDelPage, if_pos rfl]

/-- `dict_del_string` with `sub_flag`, by induction on the string. -/
theorem dictDelString_deleted {str : List α} (on : OnPage dict depth ptr)
    (allowed : Allowed str (dict.page ptr).entries) (enough : depth ≤ fuel) :
    ∃ last r freed, dictDelString true fuel str dict ptr = some (last, r) ∧
      Deleted str dict last depth ptr r freed [] [] := by
  induction str generalizing depth ptr with
  | nil =>
    cases depth with
    | zero => exact absurd on.wf id
    | succ depth =>
      rw [dictDelString]
      exact dictDelPage_deleted on allowed (by omega) fun c tail eq =>
        absurd eq.symm (cons_ne_nil c tail)
  | cons c str induction =>
    cases depth with
    | zero => exact absurd on.wf id
    | succ depth =>
      rw [dictDelString]
      refine dictDelPage_deleted on allowed (by omega) fun d tail eq longer => ?_
      obtain ⟨rfl, rfl⟩ := cons_eq_cons.mp eq
      refine ⟨dictDelString_zero str dict, fun subptr child => ?_⟩
      exact induction child (Or.inl longer) (by omega)

end

section

variable {page : Nat → Page α ι}

omit [LinearOrder α] in
theorem pages_of_key {depth ptr : Nat} :
    ∀ key ∈ keysAt page depth ptr, ∀ q ∈ key.pages, q ∈ pagesAt page depth ptr := by
  induction depth generalizing ptr with
  | zero => exact fun key mem => absurd mem not_mem_nil
  | succ depth induction =>
    intro key mem q q_mem
    obtain ⟨inner, inner_mem, rfl⟩ := mem_map.mp mem
    obtain ⟨entry, entry_mem, inner_mem⟩ := mem_flatMap.mp inner_mem
    obtain rfl | q_mem := mem_cons.mp q_mem
    · exact mem_pagesAt _ _ _
    · refine .tail _ ?_
      cases entry with
      | tail str info =>
        obtain rfl := mem_singleton.mp inner_mem
        exact absurd q_mem not_mem_nil
      | sub subptr dc info =>
        rw [keys_sub, mem_append] at inner_mem
        obtain inner_mem | inner_mem := inner_mem
        · split at inner_mem
          · cases inner_mem
          · obtain rfl := mem_singleton.mp inner_mem
            exact absurd q_mem not_mem_nil
        · split at inner_mem
          · cases inner_mem
          next nonzero =>
            obtain ⟨lower, lower_mem, rfl⟩ := mem_map.mp inner_mem
            have sub : subptr ∈ (sub subptr dc info).subptrs := by
              rw [subptrs, if_neg nonzero]
              exact mem_singleton_self subptr
            exact mem_flatMap.mpr
              ⟨subptr, mem_subptrs entry_mem sub, induction lower lower_mem q q_mem⟩

omit [LinearOrder α] in
/-- Over every page that is live the way leads to a key. -/
theorem key_of_page {depth ptr : Nat} (live : LiveAt page depth ptr)
    (nonempty : (page ptr).entries ≠ []) :
    ∀ q ∈ pagesAt page depth ptr, ∃ key ∈ keysAt page depth ptr, q ∈ key.pages := by
  induction depth generalizing ptr with
  | zero => exact absurd live id
  | succ depth induction =>
    -- a key below an entry is one below the page
    have lift : ∀ entry ∈ (page ptr).entries, ∀ subptr ∈ entry.subptrs,
        ∀ q ∈ pagesAt page depth subptr,
          ∃ key ∈ keysAt page (depth + 1) ptr, q ∈ key.pages := by
      intro entry mem subptr sub q q_mem
      obtain ⟨page_nonempty, page_live⟩ := (live entry mem).2 subptr sub
      obtain ⟨key, key_mem, way⟩ := induction page_live page_nonempty q q_mem
      cases entry with
      | tail str info => exact absurd sub not_mem_nil
      | sub subptr' dc info =>
        rw [subptrs] at sub
        split at sub
        · cases sub
        next nonzero =>
          obtain rfl := mem_singleton.mp sub
          refine ⟨Key.through ptr (Key.under dc key), mem_map_of_mem ?_,
            .tail _ way⟩
          refine mem_flatMap.mpr ⟨_, mem, ?_⟩
          rw [keys_sub, if_neg nonzero]
          exact mem_append_right _ (mem_map_of_mem key_mem)
    intro q q_mem
    obtain rfl | q_mem := mem_cons.mp q_mem
    · obtain ⟨entry, entry_mem⟩ := exists_mem_of_ne_nil _ nonempty
      suffices some : ∃ key, key ∈ entry.keys (keysAt page depth) by
        obtain ⟨key, key_mem⟩ := some
        exact ⟨Key.through q key,
          mem_map_of_mem (mem_flatMap.mpr ⟨entry, entry_mem, key_mem⟩),
          .head _⟩
      obtain ⟨own, sub⟩ := live entry entry_mem
      cases entry with
      | tail str info => exact ⟨_, mem_singleton_self _⟩
      | sub subptr dc info =>
        rw [keys_sub]
        by_cases zero : subptr = 0
        · subst zero
          rw [if_neg (own dc info rfl)]
          exact ⟨_, mem_append_left _ (mem_singleton_self _)⟩
        · rw [if_neg zero]
          rw [subptrs, if_neg zero] at sub
          obtain ⟨page_nonempty, page_live⟩ := sub subptr (mem_singleton_self _)
          cases depth with
          | zero => exact absurd page_live id
          | succ depth =>
            obtain ⟨key, key_mem, -⟩ := induction page_live page_nonempty subptr
              (mem_pagesAt _ _ _)
            exact ⟨_, mem_append_right _ (mem_map_of_mem key_mem)⟩
    · obtain ⟨subptr, sub_mem, q_mem⟩ := mem_flatMap.mp q_mem
      obtain ⟨entry, entry_mem, sub⟩ := mem_flatMap.mp sub_mem
      exact lift entry entry_mem subptr sub q q_mem

end

section

variable (d : Dictionary α ι)

/-- Every entry leads to a key, and every page but the root has entries. -/
def Dictionary.Live : Prop := d.root ≠ 0 → LiveAt d.page d.depth d.root

def Dictionary.OnlyHeld (p : List α) (ptr : Nat) : Prop :=
  ∀ key ∈ d.keys d.depth, ptr ∈ key.pages → p <+: key.str

variable {d}

theorem Dictionary.onPage (root : d.root ≠ 0) : OnPage d.toDictStruct d.depth d.root := by
  have pages : d.pages d.depth = pagesAt d.page d.depth d.root := if_neg root
  exact ⟨d.ordered root, pages ▸ d.nodup, pages ▸ d.nonzero, .inl rfl⟩

/-- The dictionary that a deletion from the root leaves. -/
theorem Deleted.dictionary {p : List α} {last : DictStruct α ι} {r : Nat} {freed : List Nat}
    (root : d.root ≠ 0) (deleted : Deleted p d.toDictStruct last d.depth d.root r freed [] []) :
    ∃ d' : Dictionary α ι, d'.toDictStruct = last ∧ d'.depth = d.depth ∧
      d'.free = freed ++ d.free := by
  have r_ne : r ≠ 2 := fun two => (deleted.gone two).ptr_ne rfl
  obtain ⟨keys, perm, wf, live⟩ := deleted.remains r_ne
  rw [append_nil] at perm
  have pages : d.pages d.depth = pagesAt d.page d.depth d.root := if_neg root
  have root_eq : last.root = d.root := deleted.released.root
  have pages' : last.pages d.depth = pagesAt last.page d.depth d.root := by
    rw [DictStruct.pages, root_eq, if_neg root]
  have distinct := perm.nodup_iff.mpr (pages ▸ d.nodup)
  have apart : ∀ q ∈ pagesAt d.page d.depth d.root, q ∉ d.free := pages ▸ d.apart
  refine ⟨{ toDictStruct := last, depth := d.depth, free := freed ++ d.free, ordered := ?_
            nonzero := ?_, nodup := ?_, freeList := ?_, free_nodup := ?_, apart := ?_ },
    rfl, rfl, rfl⟩
  · intro _
    rw [root_eq]
    exact wf
  · rw [pages']
    exact fun mem => d.nonzero (pages ▸ perm.mem_iff.mp (mem_append_right _ mem))
  · rw [pages']
    exact distinct.of_append_right
  · exact deleted.released.freeList d.free d.freeList fun q mem in_pages => apart q in_pages mem
  · refine nodup_append'.mpr ⟨distinct.of_append_left, d.free_nodup, fun q mem => ?_⟩
    exact apart q (perm.mem_iff.mp (mem_append_left _ mem))
  · intro q mem in_free
    rw [pages'] at mem
    obtain in_freed | in_free := mem_append.mp in_free
    · exact (nodup_append'.mp distinct).2.2 in_freed mem
    · exact apart q (perm.mem_iff.mp (mem_append_right _ mem)) in_free

/-- What `dict_delete_subtree` does to the pages: those that are put on the free list had only keys
that are deleted, and where every entry leads to a key these are all such pages but the root. -/
structure PagesFreed (d d' : Dictionary α ι) (p : List α) (freed : List Nat) : Prop where
  free : d'.free = freed ++ d.free
  nodup : freed.Nodup
  pages : (freed ++ d'.pages d'.depth).Perm (d.pages d.depth)
  only : ∀ ptr ∈ freed, ptr ≠ d.root ∧ d.OnlyHeld p ptr
  all : d.Live → ∀ ptr ∈ d.pages d.depth, ptr ≠ d.root → d.OnlyHeld p ptr → ptr ∈ freed

theorem dictDeleteSubtree_depth (d : Dictionary α ι) (p : List α) (fuel : Nat)
    (enough : d.depth ≤ fuel)
    (given : p = [] → d.root ≠ 0 → ∀ entry ∈ (d.page d.root).entries, entry.isSub = false) :
    ∃ (d' : Dictionary α ι) (r : Nat) (infos : List (List ι)) (told : Key α ι → List ι)
      (freed : List Nat),
      d'.depth = d.depth ∧ dictDeleteSubtree fuel d.toDictStruct p = some (d'.toDictStruct, r) ∧
      d'.keys d'.depth = (d.keys d.depth).filter (fun key => ¬ p <+: key.str) ∧
      d'.calls = d.calls ++ infos ∧
      infos.Perm (((d.keys d.depth).filter fun key => p <+: key.str).map told) ∧
      (∀ key, (key.str = p → key.atSub = false) → told key = key.info) ∧
      PagesFreed d d' p freed := by
  by_cases root : d.root = 0
  · have no_keys : d.keys d.depth = [] := if_pos root
    have no_pages : d.pages d.depth = [] := if_pos root
    refine ⟨d, 0, [], Key.info, [], rfl, ?_, ?_, (append_nil _).symm, ?_, fun _ _ => rfl,
      rfl, nodup_nil, Perm.refl _, fun ptr mem => absurd mem not_mem_nil, ?_⟩
    · rw [dictDeleteSubtree, root, dictDelString_zero]
    · rw [no_keys]
      rfl
    · rw [no_keys]
      exact Perm.refl _
    · intro _ ptr mem
      rw [no_pages] at mem
      cases mem
  · have allowed : Allowed p (d.page d.root).entries := by
      by_cases empty : p = []
      · exact .inr (given empty root)
      · exact .inl empty
    obtain ⟨last, r, freed, done, deleted⟩ :=
      dictDelString_deleted (Dictionary.onPage root) allowed enough
    have r_ne : r ≠ 2 := fun two => (deleted.gone two).ptr_ne rfl
    obtain ⟨d', rfl, depth_eq, free_eq⟩ := deleted.dictionary root
    obtain ⟨keys_eq, perm, -, live⟩ := deleted.remains r_ne
    obtain ⟨infos, calls, told_perm⟩ := deleted.released.calls
    have root_eq : d'.root = d.root := deleted.released.root
    have keys : d.keys d.depth = keysAt d.page d.depth d.root := if_neg root
    have pages : d.pages d.depth = pagesAt d.page d.depth d.root := if_neg root
    have keys' : d'.keys d'.depth = keysAt d'.page d.depth d.root := by
      rw [DictStruct.keys, root_eq, if_neg root, depth_eq]
    have pages' : d'.pages d'.depth = pagesAt d'.page d.depth d.root := by
      rw [DictStruct.pages, root_eq, if_neg root, depth_eq]
    have kept_eq : d'.keys d'.depth = (d.keys d.depth).filter (fun key => ¬ p <+: key.str) := by
      rw [keys', keys_eq, keys, kept]
      congr 1
      funext key
      exact (decide_not).symm
    have all_pages : (freed ++ d'.pages d'.depth).Perm (d.pages d.depth) := by
      rw [pages, pages']
      exact (append_nil freed) ▸ perm
    have apart := (nodup_append'.mp (all_pages.nodup_iff.mpr d.nodup)).2.2
    refine ⟨d', r, infos, told p, freed, depth_eq, done, kept_eq, calls, ?_, ?_, free_eq, ?_,
      all_pages, ?_, ?_⟩
    · rw [keys]
      exact (append_nil infos) ▸ told_perm
    · exact fun key inline => if_neg fun both => by
        rw [inline both.1] at both
        exact Bool.noConfusion both.2
    · exact (all_pages.nodup_iff.mpr d.nodup).of_append_left
    · intro ptr mem
      refine ⟨?_, fun key key_mem way => ?_⟩
      · rintro rfl
        refine apart mem ?_
        rw [pages']
        have wf := d.ordered root
        cases depth : d.depth with
        | zero =>
          rw [depth] at wf
          exact absurd wf id
        | succ depth => exact mem_pagesAt _ _ _
      · by_contra miss
        refine apart mem ?_
        have stays : key ∈ d'.keys d'.depth := by
          rw [kept_eq]
          exact mem_filter.mpr ⟨key_mem, decide_eq_true miss⟩
        rw [keys'] at stays
        rw [pages']
        exact pages_of_key key stays ptr way
    · intro all_live ptr mem ptr_ne only
      obtain mem | mem := mem_append.mp (all_pages.mem_iff.mpr mem)
      · exact mem
      · rw [pages'] at mem
        have nonempty : (d'.page d.root).entries ≠ [] := by
          intro empty
          have wf := d.ordered root
          cases depth : d.depth with
          | zero =>
            rw [depth] at wf
            exact absurd wf id
          | succ depth =>
            rw [depth, pagesAt_succ, empty, entriesPages_nil] at mem
            exact ptr_ne (mem_singleton.mp mem)
        obtain ⟨key, key_mem, way⟩ := key_of_page (live (all_live root)) nonempty ptr mem
        rw [← keys', kept_eq] at key_mem
        obtain ⟨before, miss⟩ := mem_filter.mp key_mem
        exact absurd (only key before way) (of_decide_eq_true miss)

theorem dictDeleteSubtree_deleted (d : Dictionary α ι) (p : List α) (fuel : Nat)
    (enough : d.depth ≤ fuel)
    (given : p = [] → d.root ≠ 0 → ∀ entry ∈ (d.page d.root).entries, entry.isSub = false) :
    ∃ (d' : Dictionary α ι) (r : Nat) (infos : List (List ι)) (told : Key α ι → List ι)
      (freed : List Nat),
      dictDeleteSubtree fuel d.toDictStruct p = some (d'.toDictStruct, r) ∧
      d'.keys d'.depth = (d.keys d.depth).filter (fun key => ¬ p <+: key.str) ∧
      d'.calls = d.calls ++ infos ∧
      infos.Perm (((d.keys d.depth).filter fun key => p <+: key.str).map told) ∧
      (∀ key, (key.str = p → key.atSub = false) → told key = key.info) ∧
      PagesFreed d d' p freed := by
  obtain ⟨d', r, infos, told, freed, -, deleted⟩ := dictDeleteSubtree_depth d p fuel enough given
  exact ⟨d', r, infos, told, freed, deleted⟩

/-- `dict_delete_subtree` deletes exactly the keys with the prefix, calls the client function once
for each of them and frees the pages that are left without keys. -/
theorem delete_subtree_exact (d : Dictionary α ι) (p : List α) (fuel : Nat)
    (enough : d.depth ≤ fuel)
    (given : p = [] → d.root ≠ 0 → ∀ entry ∈ (d.page d.root).entries, entry.isSub = false) :
    ∃ (d' : Dictionary α ι) (r : Nat) (infos : List (List ι)) (told : Key α ι → List ι)
      (freed : List Nat),
      dictDeleteSubtree fuel d.toDictStruct p = some (d'.toDictStruct, r) ∧
      d'.keys d'.depth = (d.keys d.depth).filter (fun key => ¬ p <+: key.str) ∧
      d'.calls = d.calls ++ infos ∧
      infos.Perm (((d.keys d.depth).filter fun key => p <+: key.str).map told) ∧
      (∀ key, (key.str = p → key.atSub = false) → told key = key.info) ∧
      PagesFreed d d' p freed :=
  dictDeleteSubtree_deleted d p fuel enough given

def oneKey : Dictionary Nat Nat where
  page _ := { type := 0, backptr := 0, entries := [.tail [1] [7]] }
  root := 1
  freelist := 0
  calls := []
  depth := 1
  free := []
  ordered _ := ⟨pairwise_singleton _ _, fun _ mem => absurd mem not_mem_nil⟩
  nonzero := by decide
  nodup := by decide
  freeList := rfl
  free_nodup := nodup_nil
  apart _ _ := not_mem_nil

/-- A dictionary with a key at an entry that leads to a page with another key. -/
def twoKeys : Dictionary Nat Nat where
  page ptr := { type := 0, backptr := 0
                entries := if ptr = 1 then [.sub 2 1 [7]] else [.tail [2] [8]] }
  root := 1
  freelist := 0
  calls := []
  depth := 2
  free := []
  ordered _ := by
    refine ⟨pairwise_singleton _ _, fun subptr mem => ?_⟩
    obtain rfl := mem_singleton.mp mem
    exact ⟨pairwise_singleton _ _, fun _ mem => absurd mem not_mem_nil⟩
  nonzero := by decide
  nodup := by decide
  freeList := rfl
  free_nodup := nodup_nil
  apart _ _ := not_mem_nil

theorem delete_subtree_exact_two :
    ∃ (d' : Dictionary Nat Nat) (r : Nat) (infos : List (List Nat)) (told : Key Nat Nat → List Nat)
      (freed : List Nat),
      dictDeleteSubtree 2 twoKeys.toDictStruct [1] = some (d'.toDictStruct, r) ∧
      d'.keys d'.depth = (twoKeys.keys 2).filter (fun key => ¬ [1] <+: key.str) ∧
      d'.calls = twoKeys.calls ++ infos ∧
      infos.Perm (((twoKeys.keys 2).filter fun key => [1] <+: key.str).map told) ∧
      (∀ key, (key.str = [1] → key.atSub = false) → told key = key.info) ∧
      PagesFreed twoKeys d' [1] freed :=
  delete_subtree_exact twoKeys [1] 2 le_rfl fun empty => absurd empty (cons_ne_nil _ _)

/-- Subtree deletion for every prefix, info and page. -/
def DeletesExactly (d : Dictionary α ι) (p : List α) : Prop :=
  ∃ (d' : Dictionary α ι) (r : Nat) (infos : List (List ι)) (freed : List Nat),
    dictDeleteSubtree d.depth d.toDictStruct p = some (d'.toDictStruct, r) ∧
    d'.keys d'.depth = (d.keys d.depth).filter (fun key => ¬ p <+: key.str) ∧
    d'.calls = d.calls ++ infos ∧
    infos.Perm (((d.keys d.depth).filter fun key => p <+: key.str).map Key.info) ∧
    d'.free = freed ++ d.free ∧ freed.Nodup ∧
    ∀ ptr ∈ d.pages d.depth, ptr ∈ freed ↔ d.OnlyHeld p ptr

/-- The root page is not put on the free list, the key that is the prefix is told with length 0 and
with the empty prefix nothing below the root page is deleted. -/
theorem not_deletes_exactly :
    ¬ DeletesExactly oneKey [1] ∧ ¬ DeletesExactly twoKeys [1] ∧ ¬ DeletesExactly twoKeys [] := by
  refine ⟨?_, ?_, ?_⟩
  · rintro ⟨d', r, infos, freed, run, -, -, -, free, -, pages⟩
    have head : (dictDeleteSubtree 1 oneKey.toDictStruct [1]).map (fun last => last.1.freelist) =
        some 0 := by decide
    have only : oneKey.OnlyHeld [1] 1 := by
      intro key mem _
      obtain rfl := mem_singleton.mp mem
      exact prefix_refl _
    have freed_one := (pages 1 (by decide)).mpr only
    have list := d'.freeList
    rw [show dictDeleteSubtree 1 oneKey.toDictStruct [1] = _ from run] at head
    have empty : d'.freelist = 0 := Option.some.inj head
    rw [free, empty] at list
    cases freed with
    | nil => cases freed_one
    | cons first freed => exact list.2.1 list.1.symm
  · rintro ⟨d', r, infos, freed, run, -, calls, perm, -⟩
    have told : (dictDeleteSubtree 2 twoKeys.toDictStruct [1]).map (fun last => last.1.calls) =
        some [[], [8]] := by decide
    rw [show dictDeleteSubtree 2 twoKeys.toDictStruct [1] = _ from run] at told
    have infos_eq : infos = [[], [8]] := (calls.symm.trans (Option.some.inj told) :)
    have seven : [7] ∈ infos := perm.mem_iff.mpr (by decide)
    rw [infos_eq] at seven
    exact absurd seven (by decide)
  · rintro ⟨d', r, infos, freed, run, -, calls, perm, -⟩
    have told : (dictDeleteSubtree 2 twoKeys.toDictStruct []).map (fun last => last.1.calls) =
        some [] := by decide
    rw [show dictDeleteSubtree 2 twoKeys.toDictStruct [] = _ from run] at told
    have infos_eq : infos = [] := (calls.symm.trans (Option.some.inj told) :)
    have seven : [7] ∈ infos := perm.mem_iff.mpr (by decide)
    rw [infos_eq] at seven
    exact absurd seven not_mem_nil

end

end Zebra.Dict
