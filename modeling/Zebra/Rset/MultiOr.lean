import Zebra.Lib.BinHeap
import Zebra.Rset.Seeking

/-!
# The multi-or

`rsmultiandor.c`, the half of `rset_create_or`: the children that have more are in a heap by their
lookahead keys.  The key on top is given; its child moves on and sinks, or leaves the heap.
-/

namespace Zebra.Rset

open Function Multiset BinHeap

/-- `struct heap_item` -/
structure OrItem (σ Key Term : Type) where
  fd : Rsfd σ Key
  buf : Key
  term : Term

structure Heap (σ Key Term : Type) where
  heapnum : Nat
  heap : Nat → OrItem σ Key Term

variable {σ Key Term : Type} (kc : KeyControl Key) (c : RsetControl σ Key Term)

def heapCmp (x y : OrItem σ Key Term) : Int := kc.cmp x.buf y.buf

def heapBalance (h : Heap σ Key Term) : Heap σ Key Term :=
  { h with heap := BinHeap.siftDown (heapCmp kc) h.heapnum h.heapnum 1 h.heap }

def heapDelete (h : Heap σ Key Term) : Heap σ Key Term :=
  heapBalance kc { heapnum := h.heapnum - 1, heap := BinHeap.swapAt h.heap 1 h.heapnum }

def heapInsert (h : Heap σ Key Term) (hi : OrItem σ Key Term) : Heap σ Key Term :=
  let cur := h.heapnum + 1
  { heapnum := cur, heap := BinHeap.siftUp (heapCmp kc) cur cur (Function.update h.heap cur hi) }

/-- The loop of `r_open_andor` that fills the heap. -/
def fillHeap (fuel : Nat) : List (RSet σ) → Heap σ Key Term → Option (Heap σ Key Term)
  | [], h => some h
  | child :: children, h => do
      let (item, fd) ← rsetDefaultRead kc c fuel (rsetOpen child)
      match item with
      | none => fillHeap fuel children h
      | some (buf, term) => fillHeap fuel children (heapInsert kc h { fd, buf, term })

/-- `r_open_or`; the positions of the heap hold anything. -/
def rOpenOr (any : Nat → OrItem σ Key Term) (fuel : Nat) (children : List (RSet σ)) :
    Option (Heap σ Key Term) :=
  fillHeap kc c fuel children { heapnum := 0, heap := any }

/-- The item on top of the heap after its child has been read or forwarded. -/
def moveTop (h : Heap σ Key Term) (item : Option (Key × Term)) (fd : Rsfd σ Key) :
    Heap σ Key Term :=
  match item with
  | none => heapDelete kc { h with heap := Function.update h.heap 1 { h.heap 1 with fd } }
  | some (buf, term) => heapBalance kc { h with heap := Function.update h.heap 1 { fd, buf, term } }

/-- `r_read_or`; the set's own term is given in place of the children's, if it has one. -/
def rReadOr (term : Option Term) (fuel : Nat) (h : Heap σ Key Term) :
    Option (Option (Key × Term) × Heap σ Key Term) :=
  if h.heapnum = 0 then some (none, h)
  else do
    let it := h.heap 1
    let (item, fd) ← rsetDefaultRead kc c fuel it.fd
    some (some (it.buf, term.getD it.term), moveTop kc h item fd)

def rForwardOr (term : Option Term) : Nat → Heap σ Key Term → Key →
    Option (Option (Key × Term) × Heap σ Key Term)
  | 0, _, _ => none
  | fuel + 1, h, untilbuf =>
    if h.heapnum = 0 then some (none, h)
    else if kc.cmp (h.heap 1).buf untilbuf < -kc.scope then do
      let (item, fd) ← rsetDefaultForward kc c fuel (h.heap 1).fd untilbuf
      rForwardOr term fuel (moveTop kc h item fd) untilbuf
    else rReadOr kc c term fuel h

def controlOr (term : Option Term) : RsetControl (Heap σ Key Term) Key Term where
  fRead := rReadOr kc c term
  fForward := some (rForwardOr kc c term)

def retag (term : Option Term) (item : Key × Term) : Key × Term := (item.1, term.getD item.2)

/-- An item of the heap with what its child has still to give. -/
abbrev Loaded (σ Key Term : Type) := OrItem σ Key Term × Multiset (Key × Term)

def Loaded.keys (x : Loaded σ Key Term) : Multiset (Key × Term) := (x.1.buf, x.1.term) ::ₘ x.2

/-- What the child of an item has to give is in order behind its buffer. -/
structure Loaded.Holds (holds : σ → Multiset (Key × Term) → Prop) (x : Loaded σ Key Term) :
    Prop where
  fd : x.1.fd.Holds holds x.2
  least : ∀ other ∈ x.2, kc.cmp x.1.buf other.1 ≤ 0

def heapKeys (n : Nat) (a : Nat → Loaded σ Key Term) : Multiset (Key × Term) :=
  (BinHeap.contents n a).bind Loaded.keys

/-- A heap whose items have something to give, in heap order. -/
structure HeapHolds (holds : σ → Multiset (Key × Term) → Prop) (h : Heap σ Key Term)
    (a : Nat → Loaded σ Key Term) : Prop where
  heap_eq : h.heap = Prod.fst ∘ a
  ordered : BinHeap.Ordered (heapCmp kc) h.heapnum h.heap
  loaded : ∀ x ∈ BinHeap.contents h.heapnum a, Loaded.Holds kc holds x

def OrHolds (holds : σ → Multiset (Key × Term) → Prop) (term : Option Term) (h : Heap σ Key Term)
    (m : Multiset (Key × Term)) : Prop :=
  ∃ a, HeapHolds kc holds h a ∧ m = (heapKeys h.heapnum a).map (retag term)

variable {kc c} {holds : σ → Multiset (Key × Term) → Prop} {h : Heap σ Key Term}
  {a : Nat → Loaded σ Key Term}

theorem KeyControl.comparator (kc : KeyControl Key) : Comparator kc.cmp where
  swap x y := by
    have swap := kc.swap x y
    omega
  trans _ _ _ le₁ le₂ := kc.le_trans le₁ le₂

theorem heapCmp_comparator (kc : KeyControl Key) :
    Comparator (heapCmp kc : OrItem σ Key Term → OrItem σ Key Term → Int) :=
  kc.comparator.comap OrItem.buf

/-- Items with what they hold are compared by their buffers. -/
def loadedCmp (kc : KeyControl Key) (x y : Loaded σ Key Term) : Int := heapCmp kc x.1 y.1

theorem loadedCmp_comparator (kc : KeyControl Key) :
    Comparator (loadedCmp kc : Loaded σ Key Term → Loaded σ Key Term → Int) :=
  (heapCmp_comparator kc).comap Prod.fst

theorem exists_heapBalance (heap_eq : h.heap = Prod.fst ∘ a)
    (ready : BinHeap.DownReady (loadedCmp kc) h.heapnum a 1)
    (loaded : ∀ x ∈ contents h.heapnum a, Loaded.Holds kc holds x) :
    ∃ b, HeapHolds kc holds (heapBalance kc h) b ∧
      heapKeys (heapBalance kc h).heapnum b = heapKeys h.heapnum a := by
  let b := siftDown (loadedCmp kc) h.heapnum h.heapnum 1 a
  have balanced : (heapBalance kc h).heap = Prod.fst ∘ b := by
    rw [heapBalance, heap_eq]
    exact siftDown_comp Prod.fst a h.heapnum 1
  have contents_eq : contents h.heapnum b = contents h.heapnum a := by
    by_cases none_left : h.heapnum = 0
    · rw [none_left]
      rfl
    · exact siftDown_contents (loadedCmp_comparator kc) le_rfl (by omega)
  refine ⟨b, ⟨balanced, ?_, ?_⟩, ?_⟩
  · rw [balanced]
    have enough : h.heapnum < 1 + h.heapnum := by omega
    exact siftDown_ordered (loadedCmp_comparator kc) ready le_rfl enough
  · intro x member
    exact loaded x (contents_eq ▸ member)
  · exact congrArg (fun contents => contents.bind Loaded.keys) contents_eq

theorem HeapHolds.loadedOrdered (held : HeapHolds kc holds h a) :
    BinHeap.Ordered (loadedCmp kc) h.heapnum a := by
  have ordered := held.ordered
  rw [held.heap_eq] at ordered
  exact ordered

theorem HeapHolds.top_mem (held : HeapHolds kc holds h a) (nonempty : h.heapnum ≠ 0) :
    Loaded.Holds kc holds (a 1) :=
  held.loaded _ (mem_contents.mpr ⟨1, le_rfl, Nat.one_le_iff_ne_zero.mpr nonempty, rfl⟩)

theorem HeapHolds.top_eq (held : HeapHolds kc holds h a) : h.heap 1 = (a 1).1 := by
  rw [held.heap_eq]
  rfl

theorem HeapHolds.top_le (held : HeapHolds kc holds h a) {key : Key × Term}
    (member : key ∈ heapKeys h.heapnum a) : kc.cmp (a 1).1.buf key.1 ≤ 0 := by
  obtain ⟨x, x_mem, key_mem⟩ := mem_bind.mp member
  obtain ⟨i, pos, le, rfl⟩ := mem_contents.mp x_mem
  have root := held.loadedOrdered.root_le (loadedCmp_comparator kc) pos le
  obtain rfl | key_mem := mem_cons.mp key_mem
  · exact root
  · exact kc.le_trans root ((held.loaded _ x_mem).least key key_mem)

theorem update_top {heap : Nat → OrItem σ Key Term} (heap_eq : heap = Prod.fst ∘ a)
    (x : Loaded σ Key Term) : update heap 1 x.1 = Prod.fst ∘ update a 1 x := by
  rw [heap_eq]
  exact (comp_update Prod.fst a 1 x).symm

theorem exists_moveTop (held : HeapHolds kc holds h a) (nonempty : h.heapnum ≠ 0)
    {left : Multiset (Key × Term)} {item : Option (Key × Term)} {fd : Rsfd σ Key}
    (delivers : Delivers kc (Rsfd.Holds holds) left (item, fd)) :
    ∃ b others, HeapHolds kc holds (moveTop kc h item fd) b ∧
      heapKeys h.heapnum a = Loaded.keys (a 1) + others ∧
      heapKeys (moveTop kc h item fd).heapnum b = left + others := by
  obtain ⟨heapnum, heap⟩ := h
  obtain ⟨n, rfl⟩ := Nat.exists_eq_succ_of_ne_zero nonempty
  obtain ⟨others, split⟩ := exists_contents_root n a
  have whole := split a fun _ _ => rfl
  have in_heap : ∀ x ∈ others, Loaded.Holds kc holds x := fun x member =>
    held.loaded x (whole.symm ▸ mem_cons_of_mem member)
  have keys_eq : heapKeys (n + 1) a = Loaded.keys (a 1) + others.bind Loaded.keys := by
    rw [heapKeys, whole, cons_bind]
  have top := held.top_eq
  cases delivers with
  | eof empty =>
    let b : Nat → Loaded σ Key Term := update a 1 ({ heap 1 with fd }, 0)
    have changed := split b fun i low => update_of_ne (by omega) _ _
    rw [contents_swap_last] at changed
    have rest := (cons_inj_right _).mp changed
    have bufs : ∀ i, (b i).1.buf = (a i).1.buf := by
      intro i
      by_cases first : i = 1
      · subst first
        rw [show b 1 = ({ heap 1 with fd }, 0) from update_self _ _ _, ← top]
      · rw [show b i = a i from update_of_ne first _ _]
    have ordered : BinHeap.Ordered (loadedCmp kc) (n + 1) b := by
      intro i low high
      have edge := held.loadedOrdered i low high
      rw [loadedCmp, heapCmp] at edge ⊢
      rw [bufs, bufs]
      exact edge
    have heap_eq : swapAt (update heap 1 { heap 1 with fd }) 1 (n + 1) =
        Prod.fst ∘ swapAt b 1 (n + 1) := by
      rw [update_top held.heap_eq ({ heap 1 with fd }, 0)]
      rfl
    obtain ⟨b', held', same⟩ := exists_heapBalance
      (h := ⟨n, swapAt (update heap 1 { heap 1 with fd }) 1 (n + 1)⟩)
      heap_eq ordered.downReady_last (rest ▸ in_heap)
    refine ⟨b', others.bind Loaded.keys, held', keys_eq, ?_⟩
    rw [zero_add]
    exact same.trans (congrArg (fun contents => contents.bind Loaded.keys) rest)
  | @key item rest _ rest_held least =>
    let b : Nat → Loaded σ Key Term := update a 1 (⟨fd, item.1, item.2⟩, rest)
    have first : b 1 = (⟨fd, item.1, item.2⟩, rest) := update_self _ _ _
    have changed := split b fun i low => update_of_ne (by omega) _ _
    have heap_eq : update heap 1 ⟨fd, item.1, item.2⟩ = Prod.fst ∘ b :=
      update_top held.heap_eq (⟨fd, item.1, item.2⟩, rest)
    have loaded : ∀ x ∈ contents (n + 1) b, Loaded.Holds kc holds x := by
      intro x member
      rw [changed, first] at member
      obtain rfl | member := mem_cons.mp member
      · exact ⟨rest_held, least⟩
      · exact in_heap x member
    have ready : BinHeap.DownReady (loadedCmp kc) (n + 1) b 1 :=
      held.loadedOrdered.downReady fun i low => update_of_ne (by omega) _ _
    obtain ⟨b', held', same⟩ := exists_heapBalance
      (h := ⟨n + 1, update heap 1 ⟨fd, item.1, item.2⟩⟩) heap_eq ready loaded
    refine ⟨b', others.bind Loaded.keys, held', keys_eq, ?_⟩
    refine same.trans ?_
    rw [heapKeys, changed, cons_bind, first]
    rfl

theorem retag_le {term : Option Term} {m : Multiset (Key × Term)} {key : Key}
    (least : ∀ other ∈ m, kc.cmp key other.1 ≤ 0) :
    ∀ other ∈ m.map (retag term), kc.cmp key other.1 ≤ 0 := by
  intro other member
  obtain ⟨item, item_mem, rfl⟩ := mem_map.mp member
  exact least item item_mem

theorem exists_rReadOr (yields : Yields kc c holds) (term : Option Term) {m : Multiset (Key × Term)}
    (held : OrHolds kc holds term h m) :
    ∃ out, Settles (fun fuel => rReadOr kc c term fuel h) out ∧
      Delivers kc (OrHolds kc holds term) m out := by
  obtain ⟨a, held, rfl⟩ := held
  by_cases empty : h.heapnum = 0
  · have nothing : heapKeys h.heapnum a = 0 := by
      rw [heapKeys, empty]
      rfl
    refine ⟨(none, h), ?_, ?_⟩
    · simp only [rReadOr, if_pos empty]
      exact .pure _
    · rw [nothing]
      exact .eof ⟨a, held, by rw [nothing]; rfl⟩
  · obtain ⟨fd_held, least⟩ := held.top_mem empty
    obtain ⟨⟨item, fd⟩, settles, delivers⟩ := yields.rsetDefaultRead fd_held
    obtain ⟨b, others, held', old, new⟩ := exists_moveTop held empty delivers
    refine ⟨(some ((h.heap 1).buf, term.getD (h.heap 1).term), moveTop kc h item fd), ?_, ?_⟩
    · simp only [rReadOr, if_neg empty]
      rw [← held.top_eq] at settles
      exact settles.bind (.pure _)
    · have split : heapKeys h.heapnum a = ((a 1).1.buf, (a 1).1.term) ::ₘ
          heapKeys (moveTop kc h item fd).heapnum b := by
        rw [old, new, Loaded.keys, cons_add]
      have fewer : ∀ other ∈ heapKeys (moveTop kc h item fd).heapnum b,
          kc.cmp (a 1).1.buf other.1 ≤ 0 := fun other member =>
        held.top_le (split ▸ mem_cons_of_mem member)
      rw [split, map_cons, held.top_eq]
      exact .key ⟨b, held', rfl⟩ (retag_le fewer)

theorem exists_rForwardOr (yields : Yields kc c holds) (term : Option Term) (untilbuf : Key)
    {m : Multiset (Key × Term)} (held : OrHolds kc holds term h m) :
    ∃ out, Settles (fun fuel => rForwardOr kc c term fuel h untilbuf) out ∧
      Forwards kc (OrHolds kc holds term) untilbuf m out := by
  induction m using strongInductionOn generalizing h with
  | ih m ih =>
    by_cases empty : h.heapnum = 0
    · obtain ⟨out, settles, delivers⟩ := exists_rReadOr (c := c) yields term held
      simp only [rReadOr, if_pos empty] at settles
      refine ⟨out, .succ ?_, 0, m, (zero_add m).symm, by simp, delivers⟩
      simp only [rForwardOr, if_pos empty]
      exact settles
    by_cases behind : kc.cmp (h.heap 1).buf untilbuf < -kc.scope
    · obtain ⟨a, held, rfl⟩ := held
      obtain ⟨fd_held, least⟩ := held.top_mem empty
      obtain ⟨⟨item, fd⟩, settles, skipped, left, split, skipped_behind, delivers⟩ :=
        yields.rsetDefaultForward untilbuf fd_held
      obtain ⟨b, others, held', old, new⟩ := exists_moveTop held empty delivers
      let passed : Multiset (Key × Term) := ((a 1).1.buf, (a 1).1.term) ::ₘ skipped
      have whole : (heapKeys h.heapnum a).map (retag term) = passed.map (retag term) +
          (heapKeys (moveTop kc h item fd).heapnum b).map (retag term) := by
        rw [← map_add, old, new, Loaded.keys, split, ← cons_add,
          add_assoc]
      have fewer : (heapKeys (moveTop kc h item fd).heapnum b).map (retag term) <
          (heapKeys h.heapnum a).map (retag term) := by
        rw [whole, map_cons, cons_add]
        exact lt_of_le_of_lt (le_add_left _ _) (lt_cons_self _ _)
      obtain ⟨out, later, skipped', left', split', behind', delivers'⟩ := ih _ fewer ⟨b, held', rfl⟩
      refine ⟨out, .succ ?_, passed.map (retag term) + skipped', left', ?_, ?_, delivers'⟩
      · simp only [rForwardOr, if_neg empty, if_pos behind]
        rw [← held.top_eq] at settles
        exact settles.bind later
      · rw [whole, split', add_assoc]
      · intro key member
        obtain member | member := mem_add.mp member
        · obtain ⟨other, other_mem, rfl⟩ := mem_map.mp member
          obtain rfl | other_mem := mem_cons.mp other_mem
          · have swap := kc.swap (h.heap 1).buf untilbuf
            rw [← held.top_eq]
            exact le_of_lt (show kc.scope < kc.cmp untilbuf (h.heap 1).buf by omega)
          · exact skipped_behind other other_mem
        · exact behind' key member
    · obtain ⟨out, settles, delivers⟩ := exists_rReadOr (c := c) yields term held
      refine ⟨out, .succ ?_, 0, m, (zero_add m).symm, by simp, delivers⟩
      simp only [rForwardOr, if_neg empty, if_neg behind]
      exact settles

theorem exists_heapInsert (held : HeapHolds kc holds h a) {x : Loaded σ Key Term}
    (x_held : Loaded.Holds kc holds x) :
    ∃ b, HeapHolds kc holds (heapInsert kc h x.1) b ∧
      heapKeys (heapInsert kc h x.1).heapnum b = Loaded.keys x + heapKeys h.heapnum a := by
  let start := update a (h.heapnum + 1) x
  let b := siftUp (loadedCmp kc) (h.heapnum + 1) (h.heapnum + 1) start
  have old : ∀ i, i ≤ h.heapnum → start i = a i := fun i le =>
    update_of_ne (by omega) _ _
  have inserted : (heapInsert kc h x.1).heap = Prod.fst ∘ b := by
    rw [heapInsert, held.heap_eq]
    refine Eq.trans ?_ (siftUp_comp Prod.fst start (h.heapnum + 1) (h.heapnum + 1))
    exact congrArg (siftUp (heapCmp kc) (h.heapnum + 1) (h.heapnum + 1))
      (comp_update Prod.fst a (h.heapnum + 1) x).symm
  have contents_eq : contents (h.heapnum + 1) b = x ::ₘ contents h.heapnum a := by
    rw [siftUp_contents le_rfl, contents_succ,
      show start (h.heapnum + 1) = x from update_self _ _ _,
      contents_congr fun i _ le => old i le]
  refine ⟨b, ⟨inserted, ?_, ?_⟩, ?_⟩
  · rw [inserted]
    exact siftUp_ordered (loadedCmp_comparator kc) (held.loadedOrdered.upReady old)
      le_rfl le_rfl
  · intro y member
    obtain rfl | member := mem_cons.mp (contents_eq ▸ member)
    · exact x_held
    · exact held.loaded y member
  · exact (congrArg (fun contents => contents.bind Loaded.keys) contents_eq).trans
      (cons_bind _ _ _)

theorem exists_fillHeap (yields : Yields kc c holds) {children : List (RSet σ)}
    {ms : List (Multiset (Key × Term))}
    (opened : List.Forall₂ (fun child m => holds child.fOpen m) children ms)
    (held : HeapHolds kc holds h a) :
    ∃ h', Settles (fun fuel => fillHeap kc c fuel children h) h' ∧
      ∃ b, HeapHolds kc holds h' b ∧ heapKeys h'.heapnum b = ms.sum + heapKeys h.heapnum a := by
  induction opened generalizing h a with
  | nil => exact ⟨h, .pure _, a, held, (zero_add _).symm⟩
  | @cons child m children ms child_held _ ih =>
    have child_held : Rsfd.Holds holds (rsetOpen child) m := child_held
    obtain ⟨⟨item, fd⟩, settles, delivers⟩ := yields.rsetDefaultRead child_held
    cases delivers with
    | eof empty =>
      obtain ⟨h', rest, b, held', keys_eq⟩ := ih held
      refine ⟨h', settles.bind rest, b, held', ?_⟩
      rw [keys_eq, List.sum_cons, zero_add]
    | @key item left _ left_held least =>
      obtain ⟨b, held', keys_eq⟩ := exists_heapInsert held
        (show Loaded.Holds kc holds (⟨fd, item.1, item.2⟩, left) from ⟨left_held, least⟩)
      obtain ⟨h', rest, b', held'', keys_eq'⟩ := ih held'
      refine ⟨h', settles.bind rest, b', held'', ?_⟩
      rw [keys_eq', keys_eq, List.sum_cons, ← add_assoc, add_comm ms.sum]
      rfl

theorem controlOr_yields (yields : Yields kc c holds) (term : Option Term) :
    Yields kc (controlOr kc c term) (OrHolds kc holds term) where
  read _ _ held := exists_rReadOr yields term held
  forward fForward has h m untilbuf held := by
    obtain rfl := Option.some.inj has
    exact exists_rForwardOr yields term untilbuf held

/-- Reading gives all keys of all children in order, and the heap is in order after any calls. -/
theorem or_gives (yields : Yields kc c holds) (term : Option Term) (any : Nat → OrItem σ Key Term)
    {children : List (RSet σ)} {ms : List (Multiset (Key × Term))}
    (opened : List.Forall₂ (fun child m => holds child.fOpen m) children ms) (hitsLimit : Nat) :
    ∃ h, Settles (fun fuel => rOpenOr kc c any fuel children) h ∧
      (∃ keys, Settles (fun fuel => rsetReadAll kc (controlOr kc c term) fuel
          (rsetOpen ⟨hitsLimit, h⟩)) keys ∧
        (keys : Multiset _) = ms.sum.map (retag term) ∧
        keys.Pairwise fun a b => kc.cmp a.1 b.1 ≤ 0) ∧
      ∀ calls, ∃ items rfd, Settles (fun fuel => serve kc (controlOr kc c term) fuel calls
          (rsetOpen ⟨hitsLimit, h⟩)) (items, rfd) ∧
        BinHeap.Ordered (heapCmp kc) rfd.priv.heapnum rfd.priv.heap := by
  have start : HeapHolds kc holds ⟨0, any⟩ fun i => (any i, 0) :=
    ⟨rfl, fun i low high => absurd (low.trans high) (by decide : ¬ 2 ≤ 0),
      fun x member => absurd member (notMem_zero x)⟩
  obtain ⟨h, settles, a, held, keys_eq⟩ := exists_fillHeap yields opened start
  have all : heapKeys h.heapnum a = ms.sum := keys_eq.trans (Multiset.add_zero _)
  have held : Rsfd.Holds (OrHolds kc holds term) (rsetOpen ⟨hitsLimit, h⟩)
      (ms.sum.map (retag term)) := ⟨a, held, (congrArg (Multiset.map (retag term)) all).symm⟩
  have yields := controlOr_yields yields term
  refine ⟨h, settles, yields.rsetReadAll held, fun calls => ?_⟩
  obtain ⟨items, rfd, m', served, b, held', -⟩ := yields.serve calls held
  exact ⟨items, rfd, served, held'.ordered⟩

theorem or_gives_two :
    ∃ h, Settles (fun fuel => rOpenOr (itKeyControl 2) tempControl
        (fun _ => ⟨rsetOpen ⟨0, []⟩, default, 0⟩) fuel
        [⟨0, [((default : LevelKey 2), 1)]⟩, ⟨0, [(default, 2)]⟩]) h ∧
      (∃ keys, Settles (fun fuel => rsetReadAll (itKeyControl 2)
          (controlOr (itKeyControl 2) tempControl (none : Option Nat)) fuel
            (rsetOpen ⟨0, h⟩)) keys ∧
        (keys : Multiset _) = ([{(default, 1)}, {(default, 2)}] :
          List (Multiset (LevelKey 2 × Nat))).sum.map (retag none) ∧
        keys.Pairwise fun a b => (itKeyControl 2).cmp a.1 b.1 ≤ 0) ∧
      ∀ calls, ∃ items rfd, Settles (fun fuel => serve (itKeyControl 2)
          (controlOr (itKeyControl 2) tempControl (none : Option Nat)) fuel calls (rsetOpen ⟨0, h⟩))
          (items, rfd) ∧
        BinHeap.Ordered (heapCmp (itKeyControl 2)) rfd.priv.heapnum rfd.priv.heap :=
  or_gives (tempControl_yields _) none _
    (.cons ⟨rfl, by decide⟩ (.cons ⟨rfl, by decide⟩ .nil)) 0

/-- A set that was created with a term gives that term in place of the child's. -/
theorem or_gives_own_term :
    ((rOpenOr (itKeyControl 2) tempControl (fun _ => ⟨rsetOpen ⟨0, []⟩, default, 0⟩) 3
        [⟨0, [((default : LevelKey 2), 1)]⟩]).bind fun h =>
      rsetReadAll (itKeyControl 2) (controlOr (itKeyControl 2) tempControl (some 7)) 3
        (rsetOpen ⟨0, h⟩)) = some [(default, 7)] := by
  decide

end Zebra.Rset
