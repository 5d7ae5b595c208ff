import Mathlib.Algebra.BigOperators.Intervals
import Zebra.Index.HeapStream
import Zebra.Index.TempThreads
import Zebra.Isamb.History

/-!
# From the calls to the merges

What `key_block_write` is called with goes to temporary files, which `zebra_index_merge` reads again
and gives to the merges of the terms, and these bring the lists up to date.
-/

namespace Zebra.TempFile

open List Isamb

theorem Merged.pops {nkeys : Nat} {hi : HeapInfo} {files : Nat → List Entry}
    {popped run : List Entry} {m : Merge} (merged : Merged nkeys hi files popped m)
    (rest : Pops m run) : Pops (mergeStart nkeys hi files) (popped ++ run) := by
  induction merged generalizing run with
  | start => exact rest
  | read before read ih =>
    rw [append_assoc]
    exact ih (.cons read rest)

/-- What `key_file_read` gives of file `kf`, which is read in pieces of `chunk` bytes. -/
def readBack (chunk fuel : Nat) (files : List (List Byte)) (kf : Nat) : List Entry :=
  ((KeyFile.init chunk (files.getD (kf - 1) [])).readAll fuel).getD []

/-- `zebra_index_merge`: the names with what their merges read. -/
def indexMerge (hi : HeapInfo) (buffers : HeapCreadInfo) (chunk fuel : Nat)
    (files : List (List Byte)) (rounds : Nat) :
    Option (List (List Byte × List (Bool × Option ItKey))) :=
  heapInpb rounds
    (heapCreadStart buffers (mergeStart files.length hi (readBack chunk fuel files)))

section

variable {parts : List (List Entry)} {files : List (List Byte)} {chunk fuel : Nat}

theorem readBack_part (gives : Forall₂ Gives parts files) (chunk_pos : 0 < chunk)
    (fuel_gt : parts.flatten.length < fuel) {i : Nat} (lt : i < parts.length) :
    (readBack chunk fuel files (i + 1)).Perm parts[i] ∧
      (readBack chunk fuel files (i + 1)).Pairwise InOrder := by
  have lt' : i < files.length := gives.length_eq ▸ lt
  have gives_part : Gives parts[i] files[i] := (forall₂_iff_get.mp gives).2 i lt lt'
  have part_le := (sublist_flatten_of_mem (getElem_mem lt)).length_le
  obtain ⟨entries, read, perm, sorted⟩ := gives_part chunk chunk_pos fuel (part_le.trans_lt fuel_gt)
  rw [readBack, Nat.add_sub_cancel, getD_eq_getElem?_getD, getElem?_eq_getElem lt',
    Option.getD_some, read]
  exact ⟨perm, sorted⟩

theorem sum_readBack (gives : Forall₂ Gives parts files) (chunk_pos : 0 < chunk)
    (fuel_gt : parts.flatten.length < fuel) {n : Nat} (le : n ≤ parts.length) :
    ∑ kf ∈ Finset.Icc 1 n, (readBack chunk fuel files kf : Multiset Entry) =
      ((parts.take n).flatten : Multiset Entry) := by
  induction n with
  | zero => rfl
  | succ n ih =>
    have part := (readBack_part gives chunk_pos fuel_gt le).1
    rw [Finset.sum_Icc_succ_top (by omega), ih (by omega), Multiset.coe_eq_coe.mpr part,
      ← take_append_getElem le, flatten_append, flatten_singleton, Multiset.coe_add]

/-- Files that give all that was written are merged as one sorted run of it would be. -/
theorem Delivered.merged {written : List Entry} (delivered : Delivered files written)
    (chunk_pos : 0 < chunk) (fuel_gt : written.length < fuel) (file : Nat → Nat)
    (buf : Nat → Entry) (buffers : HeapCreadInfo) :
    ∃ run, run.Perm written ∧ run.Pairwise InOrder ∧
      Settles (indexMerge (keyHeapInitFile file buf) buffers chunk fuel files)
        ((namesOf run).map fun name => (name, due run name)) := by
  obtain ⟨parts, rfl, gives⟩ := delivered
  have sorted : ∀ kf ∈ Finset.Icc 1 files.length,
      (readBack chunk fuel files kf).Pairwise InOrder := by
    intro kf mem
    obtain ⟨low, high⟩ := Finset.mem_Icc.mp mem
    obtain ⟨i, rfl⟩ : ∃ i, kf = i + 1 := ⟨kf - 1, by omega⟩
    exact (readBack_part gives chunk_pos fuel_gt (gives.length_eq ▸ high)).2
  obtain ⟨run, m, merged, drained⟩ :=
    (Merged.start : Merged _ (keyHeapInitFile file buf) _ _ _).drains sorted
  obtain ⟨ready, ordered, -, total⟩ := merged.spec sorted
  have pops := merged.pops (.nil drained)
  rw [append_nil] at pops
  refine ⟨run, Multiset.coe_eq_coe.mp ?_, ordered,
    heapInpb_spec (heapCreadStart_done buffers pops) ordered⟩
  rw [pending_of_heapReadOne ready drained, add_zero] at total
  rw [total, ← gives.length_eq, sum_readBack gives chunk_pos fuel_gt le_rfl, take_length]

end

/-- What `heap_cread_item2` gives, with the modes of `isamb_merge`. -/
def mergeOps (items : List (Bool × Option ItKey)) : List (ItKey × Nat) :=
  items.map fun item => (item.2.getD [], item.1.toNat)

section

variable {run : List Entry} {name : List Byte} {n : Nat}

theorem mem_keysOf {key : ItKey} (mem : key ∈ keysOf run name) :
    ∃ entry ∈ run, entry.key = key := by
  obtain ⟨entry, listed, rfl⟩ := mem_map.mp ((destutter_sublist _ _).subset mem)
  exact ⟨entry, (mem_filter.mp listed).1, rfl⟩

variable (sorted : run.Pairwise InOrder) (keys : ∀ entry ∈ run, (keyLawful n).Valid entry.key)

include sorted keys

theorem mem_mergeOps {key : ItKey} (length : key.length = n) (mode : Nat) :
    (key, mode) ∈ mergeOps (due run name) ↔
      net run name key ≠ 0 ∧ mode = (decide (0 < net run name key)).toNat := by
  constructor
  · intro mem
    obtain ⟨item, listed, same⟩ := mem_map.mp mem
    obtain ⟨key', -, emitted⟩ := mem_flatMap.mp listed
    obtain ⟨some_left, rfl⟩ := mem_replicate.mp emitted
    cases same
    exact ⟨Int.natAbs_ne_zero.mp some_left, rfl⟩
  · rintro ⟨some_left, rfl⟩
    have listed : key ∈ keysOf run name := by
      by_contra none
      refine some_left (net_eq_zero fun entry mem same => none ?_)
      obtain ⟨key', listed, equal⟩ := (keysOf_spec sorted name).2 entry mem same.1
      obtain ⟨entry', mem', rfl⟩ := mem_keysOf listed
      have length' := (keys entry mem).2
      rw [(keyCompare_eq_zero (length.trans length'.symm)).mp same.2]
      exact (keyCompare_eq_zero ((keys entry' mem').2.trans length'.symm)).mp equal ▸ listed
    refine mem_map.mpr ⟨_, mem_flatMap.mpr ⟨key, listed, mem_replicate.mpr ⟨?_, rfl⟩⟩, rfl⟩
    exact Int.natAbs_ne_zero.mpr some_left

theorem mergeOps_valid (once : ∀ key, (net run name key).natAbs ≤ 1) :
    ValidOps (keyLawful n).Valid (mergeOps (due run name)) where
  sorted := by
    rw [mergeOps, due, pairwise_map, pairwise_flatMap]
    refine ⟨fun key _ => pairwise_replicate.mpr (.inl (once key)), ?_⟩
    refine (keysOf_spec sorted name).1.imp_of_mem fun mem1 mem2 less item1 in1 item2 in2 => ?_
    obtain ⟨entry1, listed1, rfl⟩ := mem_keysOf mem1
    obtain ⟨entry2, listed2, rfl⟩ := mem_keysOf mem2
    rw [eq_of_mem_replicate in1, eq_of_mem_replicate in2]
    exact (keyCompare_neg ((keys _ listed1).2.trans (keys _ listed2).2.symm)).mp less
  valid op mem := by
    obtain ⟨item, listed, rfl⟩ := mem_map.mp mem
    obtain ⟨key, from_run, emitted⟩ := mem_flatMap.mp listed
    obtain ⟨entry, entry_mem, rfl⟩ := mem_keysOf from_run
    rw [eq_of_mem_replicate emitted]
    exact keys entry entry_mem
  mode op mem := by
    obtain ⟨item, -, rfl⟩ := mem_map.mp mem
    cases item.1 with
    | false => exact .inl rfl
    | true => exact .inr rfl

/-- Keys are inserted or deleted once at most, and only such deleted as the list of the name has.
Then its merge is a valid one, and a list that it leaves has what was there and is not deleted, and
what is inserted. -/
theorem name_updated {ι : Type} [Fintype ι] [DecidableEq ι] {layout : Layout} {s : Store ι}
    {P : Store ι → ι → List (ItKey × Nat) → Prop} (reachable : Reachable (keyLawful n) layout P s)
    (once : ∀ key, (net run name key).natAbs ≤ 1) {i : ι}
    (present : ∀ key, net run name key < 0 → key.length = n → s.Contains keyMethod i key) :
    ValidMerge (keyLawful n) s i (mergeOps (due run name)) ∧
      (s.merge keyMethod i (mergeOps (due run name)) = .error .exit ∨
        ∃ s', s.merge keyMethod i (mergeOps (due run name)) = .ok s' ∧
          (s'.roots i ≠ 0 → ∀ key : ItKey, key.length = n →
            (s'.Contains keyMethod i key ↔
              (s.Contains keyMethod i key ∧ 0 ≤ net run name key) ∨ 0 < net run name key))) := by
  have stream := mergeOps_valid sorted keys once
  have deleted {key : ItKey} (length : key.length = n) :
      (key, 0) ∈ mergeOps (due run name) ↔ net run name key < 0 := by
    rw [mem_mergeOps sorted keys length]
    by_cases more : 0 < net run name key <;> simp [more] <;> omega
  have inserted {key : ItKey} (length : key.length = n) :
      (key, 1) ∈ mergeOps (due run name) ↔ 0 < net run name key := by
    rw [mem_mergeOps sorted keys length]
    by_cases more : 0 < net run name key <;> simp [more]; omega
  have valid : ValidMerge (keyLawful n) s i (mergeOps (due run name)) := by
    refine .of_contains reachable stream fun key mem => ?_
    have length := (stream.valid _ mem).2
    exact present key ((deleted length).mp mem) length
  refine ⟨valid, ?_⟩
  obtain ⟨lists, holds⟩ := reachable.holds
  refine (holds.merge valid).imp id fun ⟨s', list', done, _⟩ => ⟨s', done,
    fun kept key length => ?_⟩
  rw [reachable.contains_iff valid done kept, deleted length, inserted length, not_lt]

end

/-- A list of the key 5 gets the key 7 in its place. -/
theorem name_updated_replaced : ∃ s, newStore.merge keyMethod 0 [([5], 1)] = .ok s ∧
    let run : List Entry := [⟨[97], false, [5]⟩, ⟨[97], true, [7]⟩]
    ValidMerge (keyLawful 1) s 0 (mergeOps (due run [97])) ∧
      (s.merge keyMethod 0 (mergeOps (due run [97])) = .error .exit ∨
        ∃ s', s.merge keyMethod 0 (mergeOps (due run [97])) = .ok s' ∧
          (s'.roots 0 ≠ 0 → ∀ key : ItKey, key.length = 1 →
            (s'.Contains keyMethod 0 key ↔
              (s.Contains keyMethod 0 key ∧ 0 ≤ net run [97] key) ∨ 0 < net run [97] key))) := by
  obtain ⟨s, done, -, read, -⟩ := single_run
  have reachable : Reachable (keyLawful 1) (Layout.isambOpen false) (fun _ _ _ => True) s :=
    .merge .empty single_valid trivial done
  have keys : ∀ entry ∈ [(⟨[97], false, [5]⟩ : Entry), ⟨[97], true, [7]⟩],
      (keyLawful 1).Valid entry.key := by
    intro entry mem
    obtain rfl | mem := mem_cons.mp mem
    · exact ⟨⟨by decide, by decide, by decide⟩, rfl⟩
    · obtain rfl := mem_singleton.mp mem
      exact ⟨⟨by decide, by decide, by decide⟩, rfl⟩
  have none_left (key : ItKey) : net [] [97] key = 0 := rfl
  refine ⟨s, done, name_updated ?_ keys reachable (fun key => ?_) fun key less length => ?_⟩
  · exact pairwise_pair.mpr (.inr ⟨rfl, by decide⟩)
  · rw [net_cons, net_cons, none_left]
    split <;> split <;> decide
  · rw [net_cons, net_cons, none_left] at less
    split at less
    · next first =>
      have same := (keyCompare_eq_zero (length.trans rfl)).mp first.2
      exact ⟨[[5]], read, same ▸ mem_singleton_self _⟩
    · split at less <;> exact absurd less (by decide)

end Zebra.TempFile
