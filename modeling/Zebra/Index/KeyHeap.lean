import Mathlib.Algebra.BigOperators.Group.Finset.Basic
import Zebra.Index.TempFiles
import Zebra.Lib.BinHeap

/-!
# Merging key files

`kinput.c`: the first entries of all key files are in a heap, whose positions are indices of
buffers.  The lowest entry is taken out and the next one of its file put in.
-/

namespace Zebra.TempFile

open Function Multiset BinHeap

structure HeapInfo where
  /-- `info.file`, by the number of the key file. -/
  file : Nat → Nat
  buf : Nat → Entry
  heapnum : Nat
  ptr : Nat → Nat

/-- The byte for insert or delete as `key_file_read` leaves it, a signed `char`. -/
def flagByte (insert : Bool) : Int := if insert then -128 else 0

/-- `key_qsort_compare` on the buffers of the heap. -/
def heapCompare (e1 e2 : Entry) : Int :=
  if strcmp e1.name e2.name ≠ 0 then strcmp e1.name e2.name
  else if keyCompare e1.key e2.key ≠ 0 then keyCompare e1.key e2.key
  else flagByte e1.insert - flagByte e2.insert

/-- `key_heap_init_file`; the buffers hold anything. -/
def keyHeapInitFile (file : Nat → Nat) (buf : Nat → Entry) : HeapInfo where
  file
  buf
  heapnum := 0
  ptr := id

def keyHeapSwap (hi : HeapInfo) (i1 i2 : Nat) : HeapInfo :=
  { hi with ptr := Function.update (Function.update hi.ptr i1 (hi.ptr i2)) i2 (hi.ptr i1) }

/-- The loop of `key_heap_delete`. -/
def deleteLoop : Nat → Nat → HeapInfo → HeapInfo
  | 0, _, hi => hi
  | fuel + 1, cur, hi =>
    let child := 2 * cur
    if child ≤ hi.heapnum then
      let child :=
        if child < hi.heapnum ∧
            heapCompare (hi.buf (hi.ptr child)) (hi.buf (hi.ptr (child + 1))) > 0 then child + 1
        else child
      if heapCompare (hi.buf (hi.ptr cur)) (hi.buf (hi.ptr child)) > 0 then
        deleteLoop fuel child (keyHeapSwap hi cur child)
      else hi
    else hi

def keyHeapDelete (hi : HeapInfo) : HeapInfo :=
  let hi := keyHeapSwap hi 1 hi.heapnum
  let hi := { hi with heapnum := hi.heapnum - 1 }
  deleteLoop hi.heapnum 1 hi

/-- The loop of `key_heap_insert`. -/
def insertLoop : Nat → Nat → HeapInfo → HeapInfo
  | 0, _, hi => hi
  | fuel + 1, cur, hi =>
    let parent := cur / 2
    if parent ≠ 0 ∧ heapCompare (hi.buf (hi.ptr parent)) (hi.buf (hi.ptr cur)) > 0 then
      insertLoop fuel parent (keyHeapSwap hi cur parent)
    else hi

def keyHeapInsert (hi : HeapInfo) (entry : Entry) (kf : Nat) : HeapInfo :=
  let cur := hi.heapnum + 1
  insertLoop cur cur
    { hi with
      heapnum := cur
      buf := Function.update hi.buf (hi.ptr cur) entry
      file := Function.update hi.file (hi.ptr cur) kf }

/-- The heap, and what is still to be read from each key file. -/
structure Merge where
  hi : HeapInfo
  files : Nat → List Entry

/-- `key_file_read`, and `key_heap_insert` unless the file has ended. -/
def Merge.refill (m : Merge) (kf : Nat) : Merge :=
  match m.files kf with
  | [] => m
  | entry :: rest =>
    { hi := keyHeapInsert m.hi entry kf, files := Function.update m.files kf rest }

def heapReadOne (m : Merge) : Option (Entry × Merge) :=
  if m.hi.heapnum = 0 then none
  else
    let n := m.hi.ptr 1
    some (m.hi.buf n, Merge.refill { m with hi := keyHeapDelete m.hi } (m.hi.file n))

/-- The loop of `zebra_index_merge` that fills the heap. -/
def mergeStart (nkeys : Nat) (hi : HeapInfo) (files : Nat → List Entry) : Merge :=
  (List.range' 1 nkeys).foldl Merge.refill { hi, files }

/-- What is at a position: an entry and the number of its file. -/
def HeapInfo.at (hi : HeapInfo) (i : Nat) : Entry × Nat := (hi.buf (hi.ptr i), hi.file (hi.ptr i))

def compareFst (e1 e2 : Entry × Nat) : Int := heapCompare e1.1 e2.1

theorem compareFst_comparator : Comparator compareFst := by
  have flags : Comparator fun e1 e2 : Entry => flagByte e1.insert - flagByte e2.insert :=
    .of_lt (fun entry => flagByte entry.insert) (by omega) (by omega)
  have law : Comparator heapCompare :=
    (strcmp_comparator.comap Entry.name).lex ((keyCompare_comparator.comap Entry.key).lex flags)
  exact law.comap Prod.fst

theorem at_keyHeapSwap (hi : HeapInfo) (i1 i2 : Nat) :
    (keyHeapSwap hi i1 i2).at = swapAt hi.at i1 i2 := by
  funext k
  by_cases right : k = i2
  · subst right
    simp [HeapInfo.at, keyHeapSwap]
  · by_cases left : k = i1
    · subst left
      simp [HeapInfo.at, keyHeapSwap, update_of_ne right]
    · rw [swapAt_of_ne _ left right]
      simp [HeapInfo.at, keyHeapSwap, update_of_ne right, update_of_ne left]

variable {hi : HeapInfo}

theorem keyHeapSwap_injective (injective : Injective hi.ptr)
    (i1 i2 : Nat) : Injective (keyHeapSwap hi i1 i2).ptr := by
  have ptr_eq : (keyHeapSwap hi i1 i2).ptr = hi.ptr ∘ Equiv.swap i1 i2 := by
    funext k
    by_cases right : k = i2
    · subst right
      simp [keyHeapSwap]
    · by_cases left : k = i1
      · subst left
        simp [keyHeapSwap, update_of_ne right]
      · simp [keyHeapSwap, update_of_ne right, update_of_ne left,
          Equiv.swap_apply_of_ne_of_ne left right]
  rw [ptr_eq]
  exact injective.comp (Equiv.injective _)

theorem insertLoop_spec (fuel cur : Nat) (injective : Injective hi.ptr) :
    (insertLoop fuel cur hi).at = siftUp compareFst fuel cur hi.at ∧
      (insertLoop fuel cur hi).heapnum = hi.heapnum ∧
      Injective (insertLoop fuel cur hi).ptr := by
  induction fuel generalizing cur hi with
  | zero => exact ⟨rfl, rfl, injective⟩
  | succ fuel induction =>
    rw [insertLoop, siftUp]
    by_cases goes : cur / 2 ≠ 0 ∧ heapCompare (hi.buf (hi.ptr (cur / 2))) (hi.buf (hi.ptr cur)) > 0
    · obtain ⟨at_eq, heapnum_eq, injective'⟩ :=
        induction (cur / 2) (keyHeapSwap_injective injective cur (cur / 2))
      rw [if_pos goes, if_pos (show _ ∧ compareFst (hi.at (cur / 2)) (hi.at cur) > 0 from goes)]
      rw [at_keyHeapSwap] at at_eq
      exact ⟨at_eq, heapnum_eq, injective'⟩
    · rw [if_neg goes,
        if_neg (show ¬(_ ∧ compareFst (hi.at (cur / 2)) (hi.at cur) > 0) from goes)]
      exact ⟨rfl, rfl, injective⟩

theorem deleteLoop_spec (fuel cur : Nat) (injective : Injective hi.ptr) :
    (deleteLoop fuel cur hi).at = siftDown compareFst hi.heapnum fuel cur hi.at ∧
      (deleteLoop fuel cur hi).heapnum = hi.heapnum ∧
      Injective (deleteLoop fuel cur hi).ptr := by
  induction fuel generalizing cur hi with
  | zero => exact ⟨rfl, rfl, injective⟩
  | succ fuel induction =>
    have child_eq : (if 2 * cur < hi.heapnum ∧
          heapCompare (hi.buf (hi.ptr (2 * cur))) (hi.buf (hi.ptr (2 * cur + 1))) > 0 then
        2 * cur + 1 else 2 * cur) = lowerChild compareFst hi.heapnum hi.at cur := rfl
    rw [deleteLoop, siftDown]
    dsimp only
    rw [child_eq]
    generalize lowerChild compareFst hi.heapnum hi.at cur = child
    by_cases has_child : 2 * cur ≤ hi.heapnum
    · rw [if_pos has_child, if_pos has_child]
      by_cases goes : heapCompare (hi.buf (hi.ptr cur)) (hi.buf (hi.ptr child)) > 0
      · obtain ⟨at_eq, heapnum_eq, injective'⟩ :=
          induction child (keyHeapSwap_injective injective cur child)
        rw [if_pos goes, if_pos (show compareFst (hi.at cur) (hi.at child) > 0 from goes)]
        rw [at_keyHeapSwap] at at_eq
        exact ⟨at_eq, heapnum_eq, injective'⟩
      · rw [if_neg goes, if_neg (show ¬compareFst (hi.at cur) (hi.at child) > 0 from goes)]
        exact ⟨rfl, rfl, injective⟩
    · rw [if_neg has_child, if_neg has_child]
      exact ⟨rfl, rfl, injective⟩

def HeapInfo.contents (hi : HeapInfo) : Multiset (Entry × Nat) :=
  BinHeap.contents hi.heapnum hi.at

/-- `ptr[1..heapnum]` is a heap of at most `nkeys` entries, in buffers of their own. -/
structure HeapInfo.IsHeap (nkeys : Nat) (hi : HeapInfo) : Prop where
  injective : Injective hi.ptr
  room : hi.heapnum ≤ nkeys
  ordered : BinHeap.Ordered compareFst hi.heapnum hi.at

theorem contents_succ (n : Nat) (a : Nat → Entry × Nat) :
    contents (n + 1) a = a (n + 1) ::ₘ contents n a := by
  have fresh : n + 1 ∉ Finset.Icc 1 n := by simp
  have more : Finset.Icc 1 (n + 1) = insert (n + 1) (Finset.Icc 1 n) := by
    ext i
    simp only [Finset.mem_Icc, Finset.mem_insert]
    omega
  rw [contents, more, Finset.insert_val_of_notMem fresh, map_cons]
  rfl

theorem contents_congr {n : Nat} {a b : Nat → Entry × Nat} (same : ∀ i, 1 ≤ i → i ≤ n → a i = b i) :
    contents n a = contents n b := by
  refine Multiset.map_congr rfl fun i mem => ?_
  obtain ⟨low, high⟩ := Finset.mem_Icc.mp (Finset.mem_val.mp mem)
  exact same i low high

variable {nkeys : Nat}

theorem keyHeapInsert_spec (heap : hi.IsHeap nkeys)
    (room : hi.heapnum < nkeys) (entry : Entry) (kf : Nat) :
    (keyHeapInsert hi entry kf).IsHeap nkeys ∧
      (keyHeapInsert hi entry kf).contents = (entry, kf) ::ₘ hi.contents := by
  let start : HeapInfo :=
    { hi with
      heapnum := hi.heapnum + 1
      buf := update hi.buf (hi.ptr (hi.heapnum + 1)) entry
      file := update hi.file (hi.ptr (hi.heapnum + 1)) kf }
  have last : start.at (hi.heapnum + 1) = (entry, kf) := by
    simp [start, HeapInfo.at]
  have before {i : Nat} (ne : i ≠ hi.heapnum + 1) : start.at i = hi.at i := by
    have ptr_ne : hi.ptr i ≠ hi.ptr (hi.heapnum + 1) := fun same => ne (heap.injective same)
    simp [start, HeapInfo.at, update_of_ne ptr_ne]
  have start_injective : Injective start.ptr := heap.injective
  obtain ⟨at_eq, heapnum_eq, injective⟩ :=
    insertLoop_spec (hi.heapnum + 1) (hi.heapnum + 1) start_injective
  have ready : BinHeap.UpReady compareFst (hi.heapnum + 1) start.at (hi.heapnum + 1) := by
    refine ⟨fun i low high ne => ?_, fun i high child two_le => ?_⟩
    · rw [before ne, before (i := i / 2) (by omega)]
      exact heap.ordered i low (by omega)
    · omega
  have inserted : keyHeapInsert hi entry kf =
      insertLoop (hi.heapnum + 1) (hi.heapnum + 1) start := rfl
  rw [inserted]
  refine ⟨⟨injective, ?_, ?_⟩, ?_⟩
  · rw [heapnum_eq]
    exact room
  · rw [heapnum_eq, at_eq]
    exact siftUp_ordered compareFst_comparator ready le_rfl le_rfl
  · rw [HeapInfo.contents, heapnum_eq, at_eq, siftUp_contents le_rfl, contents_succ, last]
    congr 1
    exact contents_congr fun i _ high => before (by omega)

/-- `key_heap_delete` takes out what is at the top. -/
theorem keyHeapDelete_spec (heap : hi.IsHeap nkeys) (nonempty : hi.heapnum ≠ 0) :
    (keyHeapDelete hi).IsHeap nkeys ∧ (keyHeapDelete hi).heapnum + 1 = hi.heapnum ∧
      hi.contents = hi.at 1 ::ₘ (keyHeapDelete hi).contents := by
  obtain ⟨n, heapnum⟩ := Nat.exists_eq_succ_of_ne_zero nonempty
  let start : HeapInfo := { keyHeapSwap hi 1 hi.heapnum with heapnum := hi.heapnum - 1 }
  have start_at : start.at = swapAt hi.at 1 hi.heapnum := at_keyHeapSwap hi 1 hi.heapnum
  have start_num : start.heapnum = n := by
    simp only [start, heapnum]
    rfl
  have start_injective : Injective start.ptr :=
    keyHeapSwap_injective heap.injective 1 hi.heapnum
  obtain ⟨at_eq, heapnum_eq, injective⟩ := deleteLoop_spec start.heapnum 1 start_injective
  have ready : BinHeap.DownReady compareFst n start.at 1 := by
    refine ⟨fun i low high ne => ?_, fun i high child two_le => ?_⟩
    · rw [start_at, swapAt_of_ne _ (k := i) (by omega) (by omega),
        swapAt_of_ne _ (k := i / 2) (by omega) (by omega)]
      exact heap.ordered i low (by omega)
    · omega
  have deleted : keyHeapDelete hi = deleteLoop start.heapnum 1 start := rfl
  rw [deleted]
  refine ⟨⟨injective, ?_, ?_⟩, ?_, ?_⟩
  · have room := heap.room
    rw [heapnum_eq, start_num]
    omega
  · rw [heapnum_eq, at_eq, start_num]
    exact siftDown_ordered compareFst_comparator ready le_rfl (by omega)
  · rw [heapnum_eq, start_num, heapnum]
  · have whole : hi.contents = contents hi.heapnum start.at := by
      rw [start_at, contents_swapAt le_rfl (by omega) (by omega) le_rfl]
      rfl
    have top : start.at (n + 1) = hi.at 1 := by
      rw [start_at, heapnum]
      exact swapAt_right _ _ _
    have rest : contents n (siftDown compareFst n n 1 start.at) =
        contents n start.at := by
      by_cases none_left : n = 0
      · subst none_left
        rfl
      · exact siftDown_contents compareFst_comparator le_rfl (by omega)
    rw [whole, heapnum, contents_succ, top, HeapInfo.contents, heapnum_eq, at_eq, start_num, rest]

/-- The entries that are still to come: those in the heap and those behind them in the files. -/
def Merge.pending (m : Merge) (nkeys : Nat) : Multiset Entry :=
  m.hi.contents.map Prod.fst + ∑ kf ∈ Finset.Icc 1 nkeys, (m.files kf : Multiset Entry)

/-- What holds while the files are read: those in `opened` that have not ended have an entry in the
heap, and entries of a file come in order. -/
structure Merge.Sound (nkeys : Nat) (opened : Nat → Prop) (m : Merge) : Prop where
  heap : m.hi.IsHeap nkeys
  numbers : ∀ e ∈ m.hi.contents, e.2 ∈ Finset.Icc 1 nkeys
  present : ∀ kf, opened kf → m.files kf ≠ [] → ∃ entry, (entry, kf) ∈ m.hi.contents
  behind : ∀ e ∈ m.hi.contents, ∀ entry ∈ m.files e.2, InOrder e.1 entry
  sorted : ∀ kf ∈ Finset.Icc 1 nkeys, (m.files kf).Pairwise InOrder

/-- Every file that has not ended has an entry in the heap. -/
def Merge.Ready (nkeys : Nat) (m : Merge) : Prop := m.Sound nkeys (· ∈ Finset.Icc 1 nkeys)

theorem inOrder_of_heapCompare {e1 e2 : Entry} (le : heapCompare e1 e2 ≤ 0) : InOrder e1 e2 := by
  rw [heapCompare] at le
  split at le
  · exact Or.inl (by omega)
  · rename_i same
    refine Or.inr ⟨strcmp_eq_zero.mp (not_not.mp same), ?_⟩
    split at le <;> omega

theorem InOrder.trans {a b c : Entry} (left : InOrder a b) (right : InOrder b c) : InOrder a c := by
  rcases left with lt | ⟨same, le⟩
  · rcases right with lt' | ⟨same', -⟩
    · left
      rw [strcmp_neg] at lt lt' ⊢
      exact lt.trans lt'
    · exact .inl (same' ▸ lt)
  · rcases right with lt' | ⟨same', le'⟩
    · exact .inl (same ▸ lt')
    · exact .inr ⟨same.trans same', keyCompare_comparator.trans _ _ _ le le'⟩

theorem sum_files_read {nkeys kf : Nat} {files : Nat → List Entry} {entry : Entry}
    {rest : List Entry} (mem : kf ∈ Finset.Icc 1 nkeys) (file_eq : files kf = entry :: rest) :
    ∑ k ∈ Finset.Icc 1 nkeys, (files k : Multiset Entry) =
      entry ::ₘ ∑ k ∈ Finset.Icc 1 nkeys, (update files kf rest k : Multiset Entry) := by
  have others : ∑ k ∈ (Finset.Icc 1 nkeys).erase kf,
      (update files kf rest k : Multiset Entry) =
      ∑ k ∈ (Finset.Icc 1 nkeys).erase kf, (files k : Multiset Entry) := by
    refine Finset.sum_congr rfl fun k mem => ?_
    rw [update_of_ne (Finset.ne_of_mem_erase mem)]
  rw [← Finset.add_sum_erase _ _ mem, ← Finset.add_sum_erase _ (fun k =>
    (update files kf rest k : Multiset Entry)) mem, others, update_self,
    file_eq, ← cons_coe, cons_add]

theorem heapnum_keyHeapInsert (heap : hi.IsHeap nkeys)
    (entry : Entry) (kf : Nat) : (keyHeapInsert hi entry kf).heapnum = hi.heapnum + 1 :=
  (insertLoop_spec _ _ (by exact heap.injective)).2.1

/-- Reading the next entry of a file of which nothing need be in the heap. -/
theorem refill_sound (kf : Nat) {opened : Nat → Prop} {m : Merge}
    (sound : m.Sound nkeys opened) (room : m.hi.heapnum < nkeys)
    (kf_mem : kf ∈ Finset.Icc 1 nkeys) :
    (m.refill kf).Sound nkeys (fun k => opened k ∨ k = kf) ∧
      (m.refill kf).pending nkeys = m.pending nkeys ∧
      (m.refill kf).hi.heapnum ≤ m.hi.heapnum + 1 := by
  cases file_eq : m.files kf with
  | nil =>
    have same : m.refill kf = m := by rw [Merge.refill, file_eq]
    rw [same]
    refine ⟨⟨sound.heap, sound.numbers, ?_, sound.behind, sound.sorted⟩, rfl, Nat.le_succ _⟩
    rintro k (known | rfl) ne
    · exact sound.present k known ne
    · exact absurd file_eq ne
  | cons first rest =>
    have filled : m.refill kf =
        { hi := keyHeapInsert m.hi first kf, files := update m.files kf rest } := by
      rw [Merge.refill, file_eq]
    obtain ⟨heap', contents_eq⟩ := keyHeapInsert_spec sound.heap room first kf
    have order := sound.sorted kf kf_mem
    rw [file_eq, List.pairwise_cons] at order
    rw [filled]
    refine ⟨⟨heap', ?numbers, ?present, ?behind, ?sorted⟩, ?pending,
      (heapnum_keyHeapInsert sound.heap first kf).le⟩
    case numbers =>
      intro e mem
      rw [contents_eq, mem_cons] at mem
      rcases mem with rfl | mem
      · exact kf_mem
      · exact sound.numbers e mem
    case present =>
      intro k known ne
      rw [contents_eq]
      by_cases same : k = kf
      · exact ⟨first, same ▸ mem_cons_self _ _⟩
      · dsimp only at ne
        rw [update_of_ne same] at ne
        obtain ⟨entry, mem⟩ := sound.present k (known.resolve_right same) ne
        exact ⟨entry, mem_cons_of_mem mem⟩
    case behind =>
      intro e mem entry left
      dsimp only at left
      rw [contents_eq, mem_cons] at mem
      rcases mem with rfl | mem
      · rw [update_self] at left
        exact order.1 entry left
      · refine sound.behind e mem entry ?_
        by_cases same : e.2 = kf
        · rw [same, update_self] at left
          rw [same, file_eq]
          exact List.mem_cons_of_mem _ left
        · rwa [update_of_ne same] at left
    case sorted =>
      intro k k_mem
      dsimp only
      by_cases same : k = kf
      · rw [same, update_self]
        exact order.2
      · rw [update_of_ne same]
        exact sound.sorted k k_mem
    case pending =>
      rw [Merge.pending, Merge.pending, contents_eq, map_cons,
        sum_files_read kf_mem file_eq, cons_add, add_cons]

theorem at_mem_contents {i : Nat} (pos : 1 ≤ i) (le : i ≤ hi.heapnum) : hi.at i ∈ hi.contents :=
  mem_map_of_mem _ (Finset.mem_val.mpr (Finset.mem_Icc.mpr ⟨pos, le⟩))

/-- The top of the heap is in order with whatever is still to come. -/
theorem Merge.Ready.top_inOrder {m : Merge} (sound : m.Ready nkeys)
    {entry : Entry} (mem : entry ∈ m.pending nkeys) : InOrder (m.hi.at 1).1 entry := by
  have in_heap {e : Entry × Nat} (mem : e ∈ m.hi.contents) : InOrder (m.hi.at 1).1 e.1 := by
    rw [HeapInfo.contents, contents] at mem
    obtain ⟨i, range, rfl⟩ := mem_map.mp mem
    obtain ⟨pos, le⟩ := Finset.mem_Icc.mp (Finset.mem_val.mp range)
    exact inOrder_of_heapCompare (sound.heap.ordered.root_le compareFst_comparator pos le)
  rw [Merge.pending, Multiset.mem_add] at mem
  rcases mem with mem | mem
  · obtain ⟨e, e_mem, rfl⟩ := mem_map.mp mem
    exact in_heap e_mem
  · obtain ⟨kf, kf_mem, mem⟩ := Multiset.mem_sum.mp mem
    have mem : entry ∈ m.files kf := mem
    obtain ⟨front, front_mem⟩ := sound.present kf kf_mem (List.ne_nil_of_mem mem)
    exact (in_heap front_mem).trans (sound.behind _ front_mem entry mem)

/-- `heap_read_one` takes the first of what is still to come. -/
theorem heapReadOne_sound {m m' : Merge} {entry : Entry}
    (sound : m.Ready nkeys) (read : heapReadOne m = some (entry, m')) :
    m'.Ready nkeys ∧ m.pending nkeys = entry ::ₘ m'.pending nkeys ∧
      ∀ later ∈ m'.pending nkeys, InOrder entry later := by
  rw [heapReadOne] at read
  split at read
  · cases read
  · rename_i nonempty
    obtain ⟨entry_eq, merge_eq⟩ := Prod.mk.inj (Option.some.inj read)
    obtain ⟨heap, heapnum_eq, contents_eq⟩ := keyHeapDelete_spec sound.heap nonempty
    have fewer {e : Entry × Nat} (mem : e ∈ (keyHeapDelete m.hi).contents) : e ∈ m.hi.contents :=
      contents_eq ▸ mem_cons_of_mem mem
    -- the file of what was taken out is the only one with nothing in the heap
    have without : Merge.Sound nkeys (fun k => k ∈ Finset.Icc 1 nkeys ∧ k ≠ (m.hi.at 1).2)
        { m with hi := keyHeapDelete m.hi } := by
      refine ⟨heap, fun e mem => sound.numbers e (fewer mem), fun k known left => ?_,
        fun e mem => sound.behind e (fewer mem), sound.sorted⟩
      obtain ⟨front, mem⟩ := sound.present k known.1 left
      rw [contents_eq, mem_cons] at mem
      exact ⟨front, mem.resolve_left fun same => known.2 (congrArg Prod.snd same)⟩
    have kf_mem := sound.numbers _ (at_mem_contents le_rfl (Nat.one_le_iff_ne_zero.mpr nonempty))
    have room := sound.heap.room
    obtain ⟨refilled, pending_eq, -⟩ := refill_sound _ without (by dsimp only; omega) kf_mem
    have taken : m.pending nkeys =
        (m.hi.at 1).1 ::ₘ Merge.pending { m with hi := keyHeapDelete m.hi } nkeys := by
      rw [Merge.pending, Merge.pending, contents_eq, map_cons, cons_add]
    have entry_at : (m.hi.at 1).1 = entry := entry_eq
    have merge_at : Merge.refill { m with hi := keyHeapDelete m.hi } (m.hi.at 1).2 = m' := merge_eq
    rw [merge_at] at refilled pending_eq
    rw [entry_at, ← pending_eq] at taken
    refine ⟨⟨refilled.heap, refilled.numbers, fun k mem => refilled.present k ?_,
      refilled.behind, refilled.sorted⟩, taken, fun later mem => ?_⟩
    · exact (eq_or_ne k (m.hi.at 1).2).elim .inr fun ne => .inl ⟨mem, ne⟩
    · rw [← entry_at]
      exact sound.top_inOrder (taken ▸ mem_cons_of_mem mem)

/-- When nothing is in the heap, nothing is still to come. -/
theorem pending_of_heapReadOne {m : Merge} (sound : m.Ready nkeys)
    (read : heapReadOne m = none) : m.pending nkeys = 0 := by
  have no_heap : m.hi.heapnum = 0 := by
    rw [heapReadOne] at read
    split at read
    · assumption
    · cases read
  have no_contents : m.hi.contents = 0 := by
    rw [HeapInfo.contents, no_heap]
    rfl
  rw [Merge.pending, no_contents, Multiset.map_zero, zero_add]
  refine Finset.sum_eq_zero fun kf kf_mem => ?_
  by_contra left
  have ne : m.files kf ≠ [] := fun file_eq => left (file_eq ▸ rfl)
  obtain ⟨entry, mem⟩ := sound.present kf kf_mem ne
  rw [no_contents] at mem
  exact notMem_zero _ mem

/-- `zebra_index_merge` puts the first entries of the files into the heap, one file after
another. -/
theorem mergeStart_heap {nkeys n : Nat} (file : Nat → Nat) (buf : Nat → Entry)
    {files : Nat → List Entry} (sorted : ∀ kf ∈ Finset.Icc 1 nkeys, (files kf).Pairwise InOrder)
    (le : n ≤ nkeys) :
    (mergeStart n (keyHeapInitFile file buf) files).Sound nkeys (· ∈ Finset.Icc 1 n) ∧
      (mergeStart n (keyHeapInitFile file buf) files).pending nkeys =
        ∑ kf ∈ Finset.Icc 1 nkeys, (files kf : Multiset Entry) ∧
      (mergeStart n (keyHeapInitFile file buf) files).hi.heapnum ≤ n := by
  induction n with
  | zero =>
    refine ⟨⟨⟨fun _ _ => id, Nat.zero_le _, fun i low high => ?_⟩, fun e mem => ?_,
      fun k known => ?_, fun e mem => ?_, sorted⟩, zero_add _, le_rfl⟩
    · exact absurd (low.trans high) (by simp [mergeStart, keyHeapInitFile])
    · exact absurd mem (notMem_zero _)
    · simp at known
    · exact absurd mem (notMem_zero _)
  | succ n induction =>
    obtain ⟨sound, pending_eq, heapnum_le⟩ := induction (by omega)
    have next : mergeStart (n + 1) (keyHeapInitFile file buf) files =
        (mergeStart n (keyHeapInitFile file buf) files).refill (n + 1) := by
      rw [mergeStart, List.range'_concat, List.foldl_append, Nat.one_mul, Nat.add_comm 1 n]
      rfl
    obtain ⟨sound', pending_eq', heapnum_le'⟩ :=
      refill_sound (n + 1) sound (by omega) (Finset.mem_Icc.mpr ⟨by omega, le⟩)
    rw [next]
    refine ⟨⟨sound'.heap, sound'.numbers, fun k known => sound'.present k ?_, sound'.behind,
      sound'.sorted⟩, pending_eq'.trans pending_eq, by omega⟩
    rw [Finset.mem_Icc] at known ⊢
    omega

section

variable {nkeys : Nat} {hi : HeapInfo} {files : Nat → List Entry}

/-- What `heap_read_one` has given so far, and what it leaves. -/
inductive Merged (nkeys : Nat) (hi : HeapInfo) (files : Nat → List Entry) :
    List Entry → Merge → Prop
  | start : Merged nkeys hi files [] (mergeStart nkeys hi files)
  | read {popped : List Entry} {m m' : Merge} {entry : Entry}
      (before : Merged nkeys hi files popped m) (read : heapReadOne m = some (entry, m')) :
      Merged nkeys hi files (popped ++ [entry]) m'

/-- Whatever has been read is in order, also with what is still to come; and together they are what
was in the files. -/
theorem Merged.spec {file : Nat → Nat} {buf : Nat → Entry}
    (sorted : ∀ kf ∈ Finset.Icc 1 nkeys, (files kf).Pairwise InOrder) {popped : List Entry}
    {m : Merge} (run : Merged nkeys (keyHeapInitFile file buf) files popped m) :
    m.Ready nkeys ∧ popped.Pairwise InOrder ∧
      (∀ entry ∈ popped, ∀ later ∈ m.pending nkeys, InOrder entry later) ∧
      (popped : Multiset Entry) + m.pending nkeys =
        ∑ kf ∈ Finset.Icc 1 nkeys, (files kf : Multiset Entry) := by
  induction run with
  | start =>
    obtain ⟨ready, pending_eq, -⟩ := mergeStart_heap file buf sorted (le_refl nkeys)
    refine ⟨ready, List.Pairwise.nil, fun entry mem => ?_, ?_⟩
    · cases mem
    · rw [coe_nil, zero_add, pending_eq]
  | read before read induction =>
    obtain ⟨ready, ordered, lower, total⟩ := induction
    obtain ⟨ready', pending_eq, first⟩ := heapReadOne_sound ready read
    rw [pending_eq] at lower total
    refine ⟨ready', ?_, ?_, ?_⟩
    · refine List.pairwise_append.mpr ⟨ordered, List.pairwise_singleton _ _, ?_⟩
      intro entry mem last last_mem
      rw [List.mem_singleton.mp last_mem]
      exact lower entry mem _ (mem_cons_self _ _)
    · intro entry mem later later_mem
      rcases List.mem_append.mp mem with mem | mem
      · exact lower entry mem later (mem_cons_of_mem later_mem)
      · rw [List.mem_singleton.mp mem]
        exact first later later_mem
    · rw [← total, ← coe_add, coe_singleton, add_assoc,
        singleton_add]

theorem Merged.drains {file : Nat → Nat} {buf : Nat → Entry}
    (sorted : ∀ kf ∈ Finset.Icc 1 nkeys, (files kf).Pairwise InOrder) {popped : List Entry}
    {m : Merge} (run : Merged nkeys (keyHeapInitFile file buf) files popped m) :
    ∃ popped m, Merged nkeys (keyHeapInitFile file buf) files popped m ∧ heapReadOne m = none := by
  induction left : (m.pending nkeys).card generalizing popped m with
  | zero =>
    refine ⟨popped, m, run, ?_⟩
    cases read : heapReadOne m with
    | none => rfl
    | some next =>
      obtain ⟨-, pending_eq, -⟩ := heapReadOne_sound (run.spec sorted).1 read
      rw [card_eq_zero.mp left] at pending_eq
      exact absurd pending_eq (zero_ne_cons)
  | succ left_less induction =>
    cases read : heapReadOne m with
    | none => exact ⟨popped, m, run, read⟩
    | some next =>
      obtain ⟨-, pending_eq, -⟩ := heapReadOne_sound (run.spec sorted).1 read
      rw [pending_eq, card_cons] at left
      exact induction (run.read read) (by omega)

end

end Zebra.TempFile
