import Zebra.Dict.Prefix

/-!
# The descent along the string

Each page on the way is changed in at most one place: strings are deleted, or the entry that leads
to the next page is removed or changed.
-/

namespace Zebra.Dict

open List

variable {α ι : Type} [LinearOrder α]

/-- One page has new entries, and the client function has been called. -/
structure Edited (dict dict' : DictStruct α ι) (ptr : Nat) (entries : List (Entry α ι))
    (infos : List (List ι)) : Prop where
  elsewhere : ∀ q ≠ ptr, dict'.page q = dict.page q
  entries : (dict'.page ptr).entries = entries
  root : dict'.root = dict.root
  freelist : dict'.freelist = dict.freelist
  calls : dict'.calls = dict.calls ++ infos

namespace Edited

variable {dict first second : DictStruct α ι} {ptr : Nat} {entries entries' : List (Entry α ι)}
  {infos infos' : List (List ι)}

omit [LinearOrder α]

theorem refl (dict : DictStruct α ι) (ptr : Nat) :
    Edited dict dict ptr (dict.page ptr).entries [] :=
  ⟨fun _ _ => rfl, rfl, rfl, rfl, (append_nil _).symm⟩

theorem setPage (dict : DictStruct α ι) (ptr : Nat) (page : Page α ι) :
    Edited dict (dict.setPage ptr page) ptr page.entries [] := by
  refine ⟨fun q ne => Function.update_of_ne ne _ _, ?_, rfl, rfl, (append_nil _).symm⟩
  exact congrArg Page.entries (Function.update_self _ _ _)

theorem call (edited : Edited dict first ptr entries infos) (more : List (List ι)) :
    Edited dict (first.call more) ptr entries (infos ++ more) := by
  refine ⟨edited.elsewhere, edited.entries, edited.root, edited.freelist, ?_⟩
  change first.calls ++ more = _
  rw [edited.calls, append_assoc]

theorem trans (one : Edited dict first ptr entries infos)
    (two : Edited first second ptr entries' infos') :
    Edited dict second ptr entries' (infos ++ infos') := by
  refine ⟨fun q ne => (two.elsewhere q ne).trans (one.elsewhere q ne), two.entries,
    two.root.trans one.root, two.freelist.trans one.freelist, ?_⟩
  rw [two.calls, one.calls, append_assoc]

end Edited

section

omit [LinearOrder α]

variable (front back : List (Entry α ι)) (entry entry' : Entry α ι)

theorem erase_middle : (front ++ entry :: back).eraseIdx front.length = front ++ back := by
  rw [eraseIdx_append_of_length_le (Nat.le_refl _), Nat.sub_self, eraseIdx_cons_zero]

theorem set_middle :
    (front ++ entry :: back).set front.length entry' = front ++ entry' :: back := by
  rw [set_append_right _ _ (Nat.le_refl _), Nat.sub_self, set_cons_zero]

theorem entriesKeys_append (page : Nat → Page α ι) (depth : Nat) (entries : List (Entry α ι)) :
    entriesKeys page depth (front ++ entries) =
      entriesKeys page depth front ++ entriesKeys page depth entries := flatMap_append

theorem entriesPages_append (page : Nat → Page α ι) (depth : Nat) (entries : List (Entry α ι)) :
    entriesPages page depth (front ++ entries) =
      entriesPages page depth front ++ entriesPages page depth entries := by
  rw [entriesPages, flatMap_append, flatMap_append, entriesPages, entriesPages]

end

def EntryLive (page : Nat → Page α ι) (depth : Nat) (entry : Entry α ι) : Prop :=
  (∀ dc info, entry = .sub 0 dc info → info ≠ []) ∧
    ∀ subptr ∈ entry.subptrs, (page subptr).entries ≠ [] ∧ LiveAt page depth subptr

/-- What is below some entries is the same in two dictionaries. -/
structure SameEntries (page page' : Nat → Page α ι) (depth : Nat) (entries : List (Entry α ι)) :
    Prop where
  keys : entriesKeys page' depth entries = entriesKeys page depth entries
  pages : entriesPages page' depth entries = entriesPages page depth entries
  wf : ∀ subptr ∈ entries.flatMap Entry.subptrs, WfAt page depth subptr → WfAt page' depth subptr
  live : ∀ entry ∈ entries, EntryLive page depth entry → EntryLive page' depth entry

theorem SameEntries.of_entries {page page' : Nat → Page α ι} {depth : Nat}
    {entries : List (Entry α ι)}
    (same : ∀ q ∈ entriesPages page depth entries, (page' q).entries = (page q).entries) :
    SameEntries page page' depth entries := by
  have below : ∀ subptr ∈ entries.flatMap Entry.subptrs, SameBelow page page' depth subptr :=
    fun subptr mem => SameBelow.of_entries fun q q_mem =>
      same q (mem_flatMap.mpr ⟨subptr, mem, q_mem⟩)
  refine ⟨?_, ?_, fun subptr mem => (below subptr mem).wf, ?_⟩
  · exact flatMap_congr_mem fun entry mem =>
      Entry.keys_congr fun subptr sub => (below subptr (mem_subptrs mem sub)).keys
  · exact flatMap_congr_mem fun subptr mem => (below subptr mem).pages
  · rintro entry mem ⟨own, sub⟩
    refine ⟨own, fun subptr sub_mem => ⟨?_, ?_⟩⟩
    · cases depth with
      | zero => exact absurd (sub subptr sub_mem).2 id
      | succ depth =>
        rw [same subptr (mem_flatMap.mpr
          ⟨subptr, mem_subptrs mem sub_mem, mem_pagesAt _ _ _⟩)]
        exact (sub subptr sub_mem).1
    · exact (below subptr (mem_subptrs mem sub_mem)).live (sub subptr sub_mem).2

section

variable {str : List α} {dict dict' : DictStruct α ι} {depth ptr : Nat} {away : List Nat}

/-- What is at a page of which the entries are in order and the pages distinct. -/
structure OnPage (dict : DictStruct α ι) (depth ptr : Nat) : Prop where
  wf : WfAt dict.page depth ptr
  nodup : (pagesAt dict.page depth ptr).Nodup
  nonzero : 0 ∉ pagesAt dict.page depth ptr
  root : ptr = dict.root ∨ dict.root ∉ pagesAt dict.page depth ptr

theorem OnPage.notMem (on : OnPage dict (depth + 1) ptr) :
    ptr ∉ entriesPages dict.page depth (dict.page ptr).entries := (nodup_cons.mp on.nodup).1

omit [LinearOrder α] in
/-- Other pages than the edited one are below other entries. -/
theorem Edited.same {entries part : List (Entry α ι)} {infos : List (List ι)}
    (edited : Edited dict dict' ptr entries infos)
    (absent : ptr ∉ entriesPages dict.page depth part) :
    ∀ q ∈ entriesPages dict.page depth part, (dict'.page q).entries = (dict.page q).entries := by
  intro q mem
  rw [edited.elsewhere q]
  rintro rfl
  exact absent mem

omit [LinearOrder α] in
theorem subptrs_of_tail {entry : Entry α ι} (tail : entry.isSub = false) : entry.subptrs = [] := by
  cases entry with
  | tail str info => rfl
  | sub subptr dc info => exact Bool.noConfusion tail

theorem subptrs_strings {entries : List (Entry α ι)}
    (tails : ∀ entry ∈ entries, hits true str entry = true → entry.isSub = false) :
    (entries.filter fun entry => !hits true str entry).flatMap Entry.subptrs =
      entries.flatMap Entry.subptrs := by
  induction entries with
  | nil => rfl
  | cons entry entries induction =>
    have rest := induction fun entry mem => tails entry (.tail _ mem)
    cases hit : hits true str entry with
    | true =>
      rw [filter_cons_of_neg (by rw [hit]; exact Bool.noConfusion), rest,
        flatMap_cons, subptrs_of_tail (tails entry mem_cons_self hit),
        nil_append]
    | false =>
      rw [filter_cons_of_pos (by rw [hit]; rfl), flatMap_cons, flatMap_cons, rest]

theorem Remains.of_strings {infos : List (List ι)} (on : OnPage dict (depth + 1) ptr)
    (allowed : Allowed str (dict.page ptr).entries)
    (tails : ∀ entry ∈ (dict.page ptr).entries, hits true str entry = true → entry.isSub = false)
    (edited : Edited dict dict' ptr
      ((dict.page ptr).entries.filter fun entry => !hits true str entry) infos) :
    Remains str dict dict' (depth + 1) ptr [] := by
  have subptrs := subptrs_strings tails
  have pages_eq : entriesPages dict.page depth
      ((dict.page ptr).entries.filter fun entry => !hits true str entry) =
      entriesPages dict.page depth (dict.page ptr).entries := by
    rw [entriesPages, subptrs, entriesPages]
  have same := SameEntries.of_entries (edited.same (pages_eq ▸ on.notMem))
  refine ⟨?_, ?_, ?_, ?_⟩
  · rw [keysAt_succ, edited.entries, same.keys, (entriesKeys_strings allowed tails).1,
      ← kept_through, keysAt_succ]
  · rw [nil_append, pagesAt_succ, edited.entries, same.pages, pages_eq, pagesAt_succ]
  · rw [WfAt, edited.entries]
    refine ⟨on.wf.1.sublist filter_sublist, fun subptr mem => same.wf subptr mem ?_⟩
    exact on.wf.2 subptr (subptrs ▸ mem)
  · intro live entry mem
    rw [edited.entries] at mem
    exact same.live entry mem (live entry (mem_of_mem_filter mem))

/-- What is at the entry that leads to the next page, before and after. -/
structure Replaced (str : List α) (page page' : Nat → Page α ι) (depth : Nat)
    (subptr : Nat) (dc : α)
    (info : List ι) (entries : List (Entry α ι)) (away : List Nat) : Prop where
  keys : entriesKeys page' depth entries =
    kept str ((Entry.sub subptr dc info).keys (keysAt page depth))
  pages : (away ++ entriesPages page' depth entries).Perm
    ((Entry.sub subptr dc info).subptrs.flatMap (pagesAt page depth))
  wf : ∀ next ∈ entries.flatMap Entry.subptrs, WfAt page' depth next
  live : EntryLive page depth (.sub subptr dc info) →
    ∀ entry ∈ entries, EntryLive page' depth entry
  entries : entries = [] ∨ ∃ subptr' info', entries = [.sub subptr' dc info']

theorem Entry.Before.replace {front back entries : List (Entry α ι)} {subptr : Nat} {dc : α}
    {info : List ι} (ordered : (front ++ .sub subptr dc info :: back).Pairwise Entry.Before)
    (new : entries = [] ∨ ∃ subptr' info', entries = [.sub subptr' dc info']) :
    (front ++ (entries ++ back)).Pairwise Entry.Before := by
  obtain rfl | ⟨subptr', info', rfl⟩ := new
  · exact ordered.sublist ((List.Sublist.refl front).append (sublist_cons_self _ _))
  · rw [pairwise_append, pairwise_cons] at ordered
    rw [singleton_append, pairwise_append, pairwise_cons]
    obtain ⟨in_front, ⟨above, in_back⟩, across⟩ := ordered
    refine ⟨in_front, ⟨fun entry mem => ?_, in_back⟩, fun entry mem entry' mem' => ?_⟩
    · have before := above entry mem
      cases entry <;> exact before
    · obtain rfl | mem' := mem_cons.mp mem'
      · have before := across entry mem _ mem_cons_self
        cases entry <;> exact before
      · exact across entry mem entry' (.tail _ mem')

/-- The page after the entry that leads to the next page has been replaced. -/
theorem Remains.of_middle {front back entries : List (Entry α ι)} {subptr : Nat} {dc : α}
    {info : List ι} (on : OnPage dict (depth + 1) ptr)
    (entries_eq : (dict.page ptr).entries = front ++ .sub subptr dc info :: back)
    (entries_eq' : (dict'.page ptr).entries = front ++ (entries ++ back))
    (outside : ∀ entry ∈ front ++ back, ∀ key ∈ entry.keys (keysAt dict.page depth),
      covers str key = false)
    (same_front : SameEntries dict.page dict'.page depth front)
    (same_back : SameEntries dict.page dict'.page depth back)
    (replaced : Replaced str dict.page dict'.page depth subptr dc info entries away) :
    Remains str dict dict' (depth + 1) ptr away := by
  have kept_outside : ∀ part : List (Entry α ι), (∀ entry ∈ part, entry ∈ front ++ back) →
      kept str (entriesKeys dict.page depth part) = entriesKeys dict.page depth part := by
    intro part inside
    refine kept_of_none fun key mem => ?_
    obtain ⟨entry, entry_mem, key_mem⟩ := mem_flatMap.mp mem
    exact outside entry (inside entry entry_mem) key key_mem
  refine ⟨?_, ?_, ?_, ?_⟩
  · rw [keysAt_succ, keysAt_succ, kept_through, entries_eq, entries_eq', entriesKeys_append,
      entriesKeys_append, entriesKeys_append, entriesKeys_cons, kept_append, kept_append,
      kept_outside front fun entry mem => mem_append_left _ mem,
      kept_outside back fun entry mem => mem_append_right _ mem, same_front.keys,
      same_back.keys, replaced.keys]
  · rw [pagesAt_succ, pagesAt_succ, entries_eq, entries_eq', entriesPages_append,
      entriesPages_append, entriesPages_append, entriesPages_cons, same_front.pages,
      same_back.pages]
    refine perm_middle.trans (List.Perm.cons _ ?_)
    calc away ++ (entriesPages dict.page depth front ++
            (entriesPages dict'.page depth entries ++ entriesPages dict.page depth back))
        _ |>.Perm (entriesPages dict.page depth front ++ (away ++
            (entriesPages dict'.page depth entries ++ entriesPages dict.page depth back))) := by
          exact perm_append_comm_assoc _ _ _
        _ |>.Perm _ := by
          rw [← append_assoc away]
          exact (replaced.pages.append_right _).append_left _
  · rw [WfAt, entries_eq']
    have ordered := on.wf.1
    rw [entries_eq] at ordered
    refine ⟨Entry.Before.replace ordered replaced.entries, fun next mem => ?_⟩
    rw [flatMap_append, flatMap_append, mem_append, mem_append] at mem
    have wf := on.wf.2 next
    rw [entries_eq, flatMap_append, flatMap_cons, mem_append, mem_append] at wf
    obtain mem | mem | mem := mem
    · exact same_front.wf next mem (wf (Or.inl mem))
    · exact replaced.wf next mem
    · exact same_back.wf next mem (wf (Or.inr (Or.inr mem)))
  · intro live entry mem
    rw [entries_eq', mem_append, mem_append] at mem
    have before : ∀ entry ∈ front ++ Entry.sub subptr dc info :: back,
        EntryLive dict.page depth entry := entries_eq ▸ live
    obtain mem | mem | mem := mem
    · exact same_front.live entry mem (before entry (mem_append_left _ mem))
    · exact replaced.live (before _ (mem_append_right _ mem_cons_self)) entry mem
    · exact same_back.live entry mem
        (before entry (mem_append_right _ (.tail _ mem)))

end

end Zebra.Dict
