import Zebra.Dict.Descent
import Zebra.Dict.Scan

/-!
# What a scan gives

With keys wanted on one side only, `dict_scan` gives the client the keys from the string on in
order, or those before the string in the reverse order.
-/

namespace Zebra.Dict

open List
open Entry (sub subptrs)

variable {α ι σ : Type} {userfunc : ScanFunc α ι σ} {page : Nat → Page α ι}

/-- The end of `dict_scan_r` after the string. -/
theorem rest_forward (fuel : Nat) (pre : List α) (ptr start : Nat) (state : Nat × σ) :
    (if 0 < state.1 then
        scanDirection userfunc true page (fuel + 1) pre ptr (some start) state
      else
        state) =
      visit userfunc true pre (entriesKeys page fuel ((page ptr).entries.drop start)) state := by
  split
  · exact scanDirection_forward page fuel pre ptr start state
  · next none =>
    obtain ⟨count, client⟩ := state
    obtain rfl : count = 0 := Nat.eq_zero_of_not_pos none
    rw [visit_zero]

/-- The end of `dict_scan_r` before the string. -/
theorem rest_backward (fuel : Nat) (pre : List α) (ptr mid : Nat) (state : Nat × σ) :
    (if 0 < state.1 ∧ 0 < mid then
        scanDirection userfunc false page (fuel + 1) pre ptr (some (mid - 1)) state
      else
        state) =
      visit userfunc false pre (entriesKeys page fuel ((page ptr).entries.take mid)) state := by
  split
  · next both =>
    have place : mid - 1 + 1 = mid := Nat.sub_add_cancel both.2
    rw [scanDirection_backward, place]
  · next none =>
    obtain ⟨count, client⟩ := state
    rcases Nat.eq_zero_or_pos mid with rfl | positive
    · rw [take_zero]
      exact (visit_nil pre _).symm
    · obtain rfl : count = 0 :=
        Nat.eq_zero_of_not_pos fun some => none ⟨some, positive⟩
      rw [visit_zero]

variable {entry : Entry α ι}

/-- The entries of a page around the one that the search has hit. -/
theorem entriesKeys_around {entries : List (Entry α ι)} {mid : Nat}
    (here : entries[mid]? = some entry) (fuel : Nat) :
    entriesKeys page fuel entries = entriesKeys page fuel (entries.take mid) ++
      (entry.keys (keysAt page fuel) ++ entriesKeys page fuel (entries.drop (mid + 1))) := by
  obtain ⟨within, same⟩ := List.getElem?_eq_some_iff.mp here
  have split : entries = entries.take mid ++ entry :: entries.drop (mid + 1) := by
    rw [← same, ← drop_eq_getElem_cons within, take_append_drop]
  conv_lhs => rw [split]
  rw [entriesKeys_append, entriesKeys_cons]

theorem entriesKeys_split (entries : List (Entry α ι)) (mid fuel : Nat) :
    entriesKeys page fuel entries =
      entriesKeys page fuel (entries.take mid) ++ entriesKeys page fuel (entries.drop mid) := by
  conv_lhs => rw [← take_append_drop mid entries]
  rw [entriesKeys_append]

variable [LinearOrder α]

theorem parts_of_page {entries : List (Entry α ι)} (ordered : entries.Pairwise Entry.Before)
    (str : List α) :
    Parts (cmpEntry str) entries
      (probe (cmpEntry str) entries (entries.length + 1) 0 entries.length 0 .eq).1
      (probe (cmpEntry str) entries (entries.length + 1) 0 entries.length 0 .eq).2 := by
  apply probe_parts
  · exact ordered.imp fun before => before.cmp
  · omega
  · exact Nat.zero_le _
  · exact le_rfl
  · exact fun i _ none => absurd none (Nat.not_lt_zero i)
  · exact fun i within above => absurd within (Nat.not_lt.mpr above)
  · exact fun other => nomatch other
  · exact fun other => nomatch other
  · exact fun _ => ⟨rfl, rfl, rfl⟩

theorem notBefore_tail (str : List α) (info : List ι) (below : Nat → List (Key α ι)) :
    notBefore str ((Entry.tail str info).keys below) = (Entry.tail str info).keys below ∧
      keysBefore str ((Entry.tail str info).keys below) = [] := by
  simp [notBefore, keysBefore, Entry.keys]

/-- Where the string ends at an entry with a sub page, nothing of the entry is before it. -/
theorem notBefore_end (subptr : Nat) (dc : α) (info : List ι) (below : Nat → List (Key α ι)) :
    notBefore [dc] ((sub subptr dc info).keys below) = (sub subptr dc info).keys below ∧
      keysBefore [dc] ((sub subptr dc info).keys below) = [] := by
  have all : ∀ key ∈ (sub subptr dc info).keys below, ¬key.str < [dc] := by
    intro key mem
    have starts := head_of_sub mem
    cases known : key.str with
    | nil =>
      rw [known] at starts
      cases starts
    | cons c rest =>
      rw [known] at starts
      cases starts
      rw [cons_lt_cons_iff]
      simp
  constructor
  · rw [notBefore, filter_eq_self]
    simpa using all
  · rw [keysBefore, filter_eq_nil_iff]
    simpa using all

theorem notBefore_sub {subptr : Nat} {dc : α} {info : List ι} {rest : List α} (more : rest ≠ [])
    (below : Nat → List (Key α ι)) :
    notBefore (dc :: rest) ((sub subptr dc info).keys below) =
        (if subptr = 0 then [] else (notBefore rest (below subptr)).map (Key.under dc)) ∧
      keysBefore (dc :: rest) ((sub subptr dc info).keys below) =
        (if info = [] then [] else [{ str := [dc], info, pages := [], atSub := true }]) ++
          (if subptr = 0 then [] else (keysBefore rest (below subptr)).map (Key.under dc)) := by
  have lower : [dc] < dc :: rest := by
    rw [cons_lt_cons_iff]
    right
    obtain ⟨c, tail, rfl⟩ := exists_cons_of_ne_nil more
    exact ⟨rfl, nil_lt_cons _ _⟩
  rw [Entry.keys, notBefore_append, keysBefore_append]
  constructor
  · have own : notBefore (dc :: rest) (if info = [] then []
        else [{ str := [dc], info, pages := [], atSub := true }] : List (Key α ι)) = [] := by
      split
      · rfl
      · simp [notBefore, lower]
    rw [own, nil_append]
    split
    · rfl
    · exact notBefore_under dc rest (below subptr)
  · congr 1
    · split
      · rfl
      · simp [keysBefore, lower]
    · split
      · rfl
      · exact keysBefore_under dc rest (below subptr)

variable {str : List α}

theorem cmp_eq_tail {info : List α} {infos : List ι}
    (same : cmpEntry str (.tail info infos) = .eq) : info = str := by
  rw [cmpEntry] at same
  split at same
  · next equal => exact equal
  · split at same <;> cases same

theorem cmp_eq_sub {subptr : Nat} {dc : α} {infos : List ι}
    (same : cmpEntry str (.sub subptr dc infos) = .eq) : ∃ rest, str = dc :: rest := by
  cases str with
  | nil => cases same
  | cons c rest =>
    rw [cmpEntry] at same
    split at same
    · next equal => exact ⟨rest, by rw [equal]⟩
    · split at same <;> cases same

variable {fuel : Nat} {below : List α → List α → Nat → Nat → Nat × σ → Nat × Nat × σ}

/-- With keys wanted from the string on, the entry that is hit gives those of its keys. -/
theorem scanHit_forward {pre : List α} {state : Nat × σ} (hit : cmpEntry str entry = .eq)
    (same : ∀ subptr ∈ entry.subptrs, ∀ rest pre state,
      below rest pre subptr 0 state =
        (0, visit userfunc true pre (notBefore rest (keysAt page fuel subptr)) state)) :
    scanHit userfunc page fuel below str pre 0 state entry =
      (0, visit userfunc true pre (notBefore str (entry.keys (keysAt page fuel))) state) := by
  cases entry with
  | tail info infos =>
    obtain rfl := cmp_eq_tail hit
    rw [(notBefore_tail info infos _).1, Entry.keys, visit_singleton]
    rfl
  | sub subptr dc info =>
    obtain ⟨rest, rfl⟩ := cmp_eq_sub hit
    rcases eq_or_ne rest [] with rfl | more
    · have below' : ∀ pre subptr (state : Nat × σ),
          scanDirection userfunc true page fuel pre subptr none state =
            visit userfunc true pre (keysAt page fuel subptr) state :=
        fun pre subptr state => scanDirection_none page fuel pre subptr state
      rw [(notBefore_end subptr dc info _).1, ← scanEntry_eq below']
      simp [scanHit, scanEntry]
    · rw [(notBefore_sub more _).1]
      rcases eq_or_ne subptr 0 with rfl | nonzero
      · rw [if_pos rfl, visit_nil]
        by_cases some : info = []
        · simp [scanHit, more, some]
        · simp [scanHit, more, some]
      · have here : subptr ∈ (sub subptr dc info).subptrs := by
          rw [subptrs, if_neg nonzero]
          exact mem_singleton_self subptr
        rw [if_neg nonzero, visit_under]
        by_cases some : info = []
        · simp [scanHit, more, some, nonzero, same subptr here]
        · simp [scanHit, more, some, nonzero, same subptr here]

/-- With keys wanted before the string, the entry that is hit gives those of its keys. -/
theorem scanHit_backward {pre : List α} {before : Nat} {client : σ} (hit : cmpEntry str entry = .eq)
    (same : ∀ subptr ∈ entry.subptrs, ∀ rest pre before client,
      below rest pre subptr before (0, client) =
        let state := visit userfunc false pre (keysBefore rest (keysAt page fuel subptr))
          (before, client)
        (state.1, 0, state.2)) :
    scanHit userfunc page fuel below str pre before (0, client) entry =
      let state := visit userfunc false pre (keysBefore str (entry.keys (keysAt page fuel)))
        (before, client)
      (state.1, 0, state.2) := by
  cases entry with
  | tail info infos =>
    obtain rfl := cmp_eq_tail hit
    rw [(notBefore_tail info infos _).2, visit_nil]
    rfl
  | sub subptr dc info =>
    obtain ⟨rest, rfl⟩ := cmp_eq_sub hit
    rcases eq_or_ne rest [] with rfl | more
    · rw [(notBefore_end subptr dc info _).2, visit_nil]
      simp [scanHit]
    · rw [(notBefore_sub more _).2, visit_append_backward]
      have sub : (if subptr ≠ 0 then below rest (pre ++ [dc]) subptr before (0, client)
          else (before, 0, client)) =
          let state := visit userfunc false pre
            (if subptr = 0 then [] else (keysBefore rest (keysAt page fuel subptr)).map
              (Key.under dc)) (before, client)
          (state.1, 0, state.2) := by
        rcases eq_or_ne subptr 0 with rfl | nonzero
        · simp
        · have here : subptr ∈ (sub subptr dc info).subptrs := by
            rw [subptrs, if_neg nonzero]
            exact mem_singleton_self subptr
          rw [if_pos nonzero, if_neg nonzero, visit_under, same subptr here]
      by_cases none : info = []
      · simp only [scanHit, tail_cons, more, if_false, sub, none]
        simp
      · simp only [scanHit, tail_cons, more, if_false, sub, none]
        simp only [ne_eq, none, not_false_eq_true, if_true, visit_singleton]

variable {ptr : Nat}

theorem dictScanPage_forward (ordered : (page ptr).entries.Pairwise Entry.Before)
    (str pre : List α) (state : Nat × σ)
    (same : ∀ subptr ∈ (page ptr).entries.flatMap subptrs, ∀ rest pre state,
      below rest pre subptr 0 state =
        (0, visit userfunc true pre (notBefore rest (keysAt page fuel subptr)) state)) :
    dictScanPage userfunc page fuel below str pre ptr 0 state =
      (0, visit userfunc true pre
        (notBefore str (entriesKeys page fuel (page ptr).entries)) state) := by
  have parts := parts_of_page ordered str
  rw [dictScanPage]
  generalize probe (cmpEntry str) (page ptr).entries ((page ptr).entries.length + 1) 0
    (page ptr).entries.length 0 .eq = found at parts ⊢
  obtain ⟨mid, last⟩ := found
  dsimp only at parts ⊢
  have rest (start : Nat) (state : Nat × σ) :
      scanRest userfunc page fuel pre ptr mid start (0, state) =
        (0, visit userfunc true pre
          (entriesKeys page fuel ((page ptr).entries.drop start)) state) := by
    rw [scanRest, ← rest_forward]
    simp
  rcases eq_or_ne last .eq with rfl | miss
  · rw [if_pos rfl, if_pos rfl]
    rcases parts.hit rfl with empty | ⟨entry, here, equal⟩
    · rw [empty, getElem?_nil, Option.elim_none, rest, empty, drop_nil]
      rfl
    · have listed : entry ∈ (page ptr).entries := mem_of_getElem? here
      rw [here, Option.elim_some,
        scanHit_forward equal fun subptr mem => same subptr (mem_subptrs listed mem), rest,
        entriesKeys_around here fuel, notBefore_append, notBefore_append,
        notBefore_of_lt parts.less, notBefore_of_gt parts.greater, nil_append,
        visit_append_forward]
  · rw [if_neg miss, if_neg miss, Option.elim_none, rest,
      entriesKeys_split (page ptr).entries mid fuel,
      notBefore_append, notBefore_of_lt parts.less, notBefore_of_gt (parts.miss miss),
      nil_append]

theorem dictScanPage_backward (ordered : (page ptr).entries.Pairwise Entry.Before)
    (str pre : List α) (before : Nat) (client : σ)
    (same : ∀ subptr ∈ (page ptr).entries.flatMap subptrs, ∀ rest pre before client,
      below rest pre subptr before (0, client) =
        let state := visit userfunc false pre (keysBefore rest (keysAt page fuel subptr))
          (before, client)
        (state.1, 0, state.2)) :
    dictScanPage userfunc page fuel below str pre ptr before (0, client) =
      let state := visit userfunc false pre
        (keysBefore str (entriesKeys page fuel (page ptr).entries)) (before, client)
      (state.1, 0, state.2) := by
  have parts := parts_of_page ordered str
  rw [dictScanPage]
  generalize probe (cmpEntry str) (page ptr).entries ((page ptr).entries.length + 1) 0
    (page ptr).entries.length 0 .eq = found at parts ⊢
  obtain ⟨mid, last⟩ := found
  dsimp only at parts ⊢
  have rest (start before : Nat) (client : σ) :
      scanRest userfunc page fuel pre ptr mid start (before, 0, client) =
        let state := visit userfunc false pre
          (entriesKeys page fuel ((page ptr).entries.take mid)) (before, client)
        (state.1, 0, state.2) := by
    rw [scanRest, ← rest_backward]
    simp
  rcases eq_or_ne last .eq with rfl | miss
  · rw [if_pos rfl, if_pos rfl]
    rcases parts.hit rfl with empty | ⟨entry, here, equal⟩
    · rw [empty, getElem?_nil, Option.elim_none, rest, empty, take_nil]
      rfl
    · have listed : entry ∈ (page ptr).entries := mem_of_getElem? here
      rw [here, Option.elim_some,
        scanHit_backward equal fun subptr mem => same subptr (mem_subptrs listed mem), rest,
        entriesKeys_around here fuel, keysBefore_append, keysBefore_append,
        keysBefore_of_lt parts.less, keysBefore_of_gt parts.greater, append_nil,
        visit_append_backward]
  · rw [if_neg miss, if_neg miss, Option.elim_none, rest,
      entriesKeys_split (page ptr).entries mid fuel,
      keysBefore_append, keysBefore_of_lt parts.less, keysBefore_of_gt (parts.miss miss),
      append_nil]

theorem dictScanR_forward (fuel : Nat) (wf : WfAt page fuel ptr) (str pre : List α)
    (state : Nat × σ) :
    dictScanR userfunc page fuel str pre ptr 0 state =
      (0, visit userfunc true pre (notBefore str (keysAt page fuel ptr)) state) := by
  induction fuel generalizing ptr str pre state with
  | zero => exact wf.elim
  | succ fuel ih =>
    rw [dictScanR, keysAt_succ, notBefore_through, visit_through]
    apply dictScanPage_forward wf.1
    exact fun subptr mem rest pre state => ih (wf.2 subptr mem) rest pre state

/-- `dict_scan_r` with keys wanted before the string. -/
theorem dictScanR_backward (fuel : Nat) (wf : WfAt page fuel ptr) (str pre : List α)
    (before : Nat) (client : σ) :
    dictScanR userfunc page fuel str pre ptr before (0, client) =
      let state := visit userfunc false pre (keysBefore str (keysAt page fuel ptr))
        (before, client)
      (state.1, 0, state.2) := by
  induction fuel generalizing ptr str pre before client with
  | zero => exact wf.elim
  | succ fuel ih =>
    rw [dictScanR, keysAt_succ, keysBefore_through, visit_through]
    apply dictScanPage_backward wf.1
    exact fun subptr mem rest pre before client => ih (wf.2 subptr mem) rest pre before client

theorem Entry.Before.keys_lt {entry' : Entry α ι} (before : entry.Before entry')
    {below : Nat → List (Key α ι)} {key key' : Key α ι} (mem : key ∈ entry.keys below)
    (mem' : key' ∈ entry'.keys below) : key.str < key'.str := by
  have reached : cmpEntry key'.str entry' ≠ .gt := by
    intro upper
    exact lt_irrefl _ (keys_of_gt upper mem')
  exact keys_of_lt (before.cmp.1 reached) mem

theorem entry_keys_sorted {below : Nat → List (Key α ι)}
    (sorted : ∀ subptr ∈ entry.subptrs,
      (below subptr).Pairwise fun key key' => key.str ≤ key'.str) :
    (entry.keys below).Pairwise fun key key' => key.str ≤ key'.str := by
  cases entry with
  | tail str info => exact pairwise_singleton _ _
  | sub subptr dc info =>
    rw [Entry.keys, pairwise_append]
    refine ⟨?_, ?_, ?_⟩
    · split
      · exact List.Pairwise.nil
      · exact pairwise_singleton _ _
    · split
      · exact List.Pairwise.nil
      · next nonzero =>
        have here : subptr ∈ (sub subptr dc info).subptrs := by
          rw [subptrs, if_neg nonzero]
          exact mem_singleton_self subptr
        rw [pairwise_map]
        apply (sorted subptr here).imp
        intro key key' le
        exact cons_le_cons dc le
    · intro key own key' under
      split at own
      · cases own
      · obtain rfl := mem_singleton.mp own
        split at under
        · cases under
        · obtain ⟨key, -, rfl⟩ := mem_map.mp under
          exact cons_le_cons dc (not_lt.mp (not_lt_nil key.str))

theorem keysAt_sorted (fuel : Nat) (wf : WfAt page fuel ptr) :
    (keysAt page fuel ptr).Pairwise fun key key' => key.str ≤ key'.str := by
  induction fuel generalizing ptr with
  | zero => exact wf.elim
  | succ fuel ih =>
    rw [keysAt, pairwise_map, pairwise_flatMap]
    constructor
    · intro entry listed
      apply entry_keys_sorted
      exact fun subptr mem => ih (wf.2 subptr (mem_subptrs listed mem))
    · apply wf.1.imp
      intro entry entry' before key mem key' mem'
      exact (before.keys_lt mem mem').le

/-- `dict_scan` with keys wanted from the string on gives the client these keys in order. -/
theorem dictScan_after (d : Dictionary α ι) (str : List α) (after : Nat) (client : σ) :
    dictScan userfunc d.toDictStruct d.depth str 0 after client =
      (visit userfunc true [] (notBefore str (d.keys d.depth)) (after, client)).2 := by
  rw [dictScan, DictStruct.keys]
  split
  · rfl
  · next root => rw [dictScanR_forward d.depth (d.ordered root)]

/-- `dict_scan` with keys wanted before the string gives the client these keys in reverse. -/
theorem dictScan_before (d : Dictionary α ι) (str : List α) (before : Nat) (client : σ) :
    dictScan userfunc d.toDictStruct d.depth str before 0 client =
      (visit userfunc false [] (keysBefore str (d.keys d.depth)) (before, client)).2 := by
  rw [dictScan, DictStruct.keys]
  split
  · rfl
  · next root => rw [dictScanR_backward d.depth (d.ordered root)]

theorem Dictionary.keys_sorted (d : Dictionary α ι) :
    (d.keys d.depth).Pairwise fun key key' => key.str ≤ key'.str := by
  rw [DictStruct.keys]
  split
  · exact List.Pairwise.nil
  · next root => exact keysAt_sorted d.depth (d.ordered root)

end Zebra.Dict
