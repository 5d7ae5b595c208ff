import Zebra.Lib.Paired
import Zebra.Rset.Common
import Zebra.Rset.MultiAnd

/-!
# What a multi-and gives

The lookahead keys together with what the children still hold are the collections the multi-and is
about.  Forwarding a child leaves out only keys whose records another child does not have; while
tails are given, what is left is the rest of their record and what the collections have in common
beyond it.
-/

namespace Zebra.Rset

open List
open Multiset (cons_ne_zero card_add)

variable {σ Key Term : Type} {kc : KeyControl Key} {c : RsetControl σ Key Term}
  {holds : σ → Multiset (Key × Term) → Prop}

/-- The keys that are still to come from an item of the array. -/
inductive Pending (kc : KeyControl Key) (holds : σ → Multiset (Key × Term) → Prop) :
    HeapItem σ Key Term → Multiset (Key × Term) → Prop
  | ahead {item : HeapItem σ Key Term} {rest : Multiset (Key × Term)} :
      item.fd.Holds holds rest → (∀ other ∈ rest, kc.cmp item.buf other.1 ≤ 0) →
      Pending kc holds item ((item.buf, item.term) ::ₘ rest)
  | ended {item : HeapItem σ Key Term} : item.fd.Holds holds 0 → Pending kc holds item 0

/-- An item while the record of `r` is given. -/
inductive Tail (kc : KeyControl Key) (holds : σ → Multiset (Key × Term) → Prop) (r : Key) :
    HeapItem σ Key Term → Multiset (Key × Term) → Prop
  | tail {item : HeapItem σ Key Term} {rest : Multiset (Key × Term)} :
      item.tailbit = true → kc.Near r item.buf → item.fd.Holds holds rest →
      (∀ other ∈ rest, kc.cmp item.buf other.1 ≤ 0) →
      Tail kc holds r item ((item.buf, item.term) ::ₘ rest)
  /-- Its keys of that record have been given; its buffer is not of a record before. -/
  | beyond {item : HeapItem σ Key Term} {m : Multiset (Key × Term)} :
      item.tailbit = false → Pending kc holds item m →
      (∀ other ∈ m, kc.cmp r other.1 ≤ -kc.scope) → kc.cmp r item.buf < kc.scope →
      Tail kc holds r item m

/-- What a multi-and has still to give. -/
inductive AndHolds (kc : KeyControl Key) (holds : σ → Multiset (Key × Term) → Prop) :
    AndRfd σ Key Term → Multiset (Key × Term) → Prop
  /-- Between records it is what the children have in common. -/
  | aligning {p : AndRfd σ Key Term} {ms : List (Multiset (Key × Term))} :
      p.tailcount = 0 → p.items ≠ [] → List.Forall₂ (Pending kc holds) p.items ms →
      (p.eof = true ↔ 0 ∈ ms) → AndHolds kc holds p (common kc ms)
  /-- Within the record of `r` it is the rest of that record, and what is in common beyond. -/
  | tailing {p : AndRfd σ Key Term} {r : Key} {ms : List (Multiset (Key × Term))} :
      p.tailcount ≠ 0 → p.tailcount = p.items.countP (·.tailbit) → p.skip = false →
      List.Forall₂ (Tail kc holds r) p.items ms →
      (p.eof = true ↔ 0 ∈ ms) → AndHolds kc holds p (tails kc r ms)

variable {m : Multiset (Key × Term)} {item : HeapItem σ Key Term}
variable {r : Key}

theorem Tail.pending
    (tail : Tail kc holds r item m) : Pending kc holds item m := by
  cases tail with
  | tail _ _ held least => exact .ahead held least
  | beyond _ pending _ _ => exact pending

theorem pending_of_key {buf : Key} {term : Term} {fd : Rsfd σ Key}
    {tailbit : Bool} (delivers : Delivers kc (Rsfd.Holds holds) m (some (buf, term), fd)) :
    Pending kc holds { fd, buf, term, tailbit } m := by
  cases delivers with
  | key left least => exact .ahead left least

theorem Pending.least
    (pending : Pending kc holds item m) (ne : m ≠ 0) :
    (item.buf, item.term) ∈ m ∧ ∀ other ∈ m, kc.cmp item.buf other.1 ≤ 0 := by
  cases pending with
  | ahead _ least =>
    refine ⟨Multiset.mem_cons_self _ _, fun other mem => ?_⟩
    rcases Multiset.mem_cons.mp mem with rfl | mem
    · exact (kc.cmp_self _).le
    · exact least other mem
  | ended _ => exact absurd rfl ne

theorem lower_spec (kc : KeyControl Key) (i : Nat) (item : HeapItem σ Key Term)
    (lowest : Option (Nat × HeapItem σ Key Term)) :
    ∃ low, lower kc i item lowest = some low ∧ (low = (i, item) ∨ lowest = some low) ∧
      kc.cmp low.2.buf item.buf ≤ 0 ∧ ∀ start, lowest = some start →
        kc.cmp low.2.buf start.2.buf ≤ 0 := by
  cases lowest with
  | none => exact ⟨(i, item), rfl, .inl rfl, (kc.cmp_self _).le, by simp⟩
  | some low =>
    simp only [lower]
    split
    · refine ⟨(i, item), rfl, .inl rfl, (kc.cmp_self _).le, ?_⟩
      rintro _ ⟨⟩
      simp only
      omega
    · have swap := kc.swap item.buf low.2.buf
      refine ⟨low, rfl, .inr rfl, by omega, ?_⟩
      rintro _ ⟨⟩
      exact (kc.cmp_self _).le

theorem mintail_eq_none {items : List (HeapItem σ Key Term)} {i : Nat}
    {lowest : Option (Nat × HeapItem σ Key Term)} (none : mintail kc items i lowest = none) :
    lowest = .none ∧ ∀ item ∈ items, item.tailbit = false := by
  induction items generalizing i lowest with
  | nil => exact ⟨none, by simp⟩
  | cons item items ih =>
    obtain ⟨lowest_eq, no_tails⟩ := ih none
    obtain ⟨low, lower_eq, -⟩ := lower_spec kc i item lowest
    cases tailbit : item.tailbit with
    | true => simp [tailbit, lower_eq] at lowest_eq
    | false =>
      simp only [tailbit, Bool.false_eq_true, if_false] at lowest_eq
      exact ⟨lowest_eq, forall_mem_cons.mpr ⟨tailbit, no_tails⟩⟩

variable {place : Nat} {low : HeapItem σ Key Term}

/-- What the loop finds is the start or a tail, and not above either. -/
theorem mintail_spec {items : List (HeapItem σ Key Term)} {i : Nat}
    {lowest : Option (Nat × HeapItem σ Key Term)}
    (found : mintail kc items i lowest = some (place, low)) :
    (lowest = some (place, low) ∨
      ∃ j, place = i + j ∧ items[j]? = some low ∧ low.tailbit = true) ∧
    (∀ start, lowest = some start → kc.cmp low.buf start.2.buf ≤ 0) ∧
    ∀ item ∈ items, item.tailbit = true → kc.cmp low.buf item.buf ≤ 0 := by
  induction items generalizing i lowest with
  | nil =>
    simp only [mintail] at found
    subst found
    simp [kc.cmp_self]
  | cons item items ih =>
    obtain ⟨origin, below_start, below⟩ := ih found
    cases tailbit : item.tailbit with
    | true =>
      obtain ⟨next, lower_eq, next_origin, next_item, next_start⟩ := lower_spec kc i item lowest
      simp only [tailbit, if_true, lower_eq] at origin below_start
      have below_next := below_start next rfl
      refine ⟨?_, fun start eq => kc.le_trans below_next (next_start start eq),
        forall_mem_cons.mpr ⟨fun _ => kc.le_trans below_next next_item, below⟩⟩
      rcases origin with eq | ⟨j, place_eq, get, low_tail⟩
      · rcases next_origin with rfl | same
        · cases eq
          exact .inr ⟨0, rfl, rfl, tailbit⟩
        · exact .inl (same.trans eq)
      · exact .inr ⟨j + 1, by omega, get, low_tail⟩
    | false =>
      simp only [tailbit, Bool.false_eq_true, if_false] at origin below_start
      refine ⟨?_, below_start, forall_mem_cons.mpr ⟨fun is_tail => ?_, below⟩⟩
      · rcases origin with eq | ⟨j, place_eq, get, low_tail⟩
        · exact .inl eq
        · exact .inr ⟨j + 1, by omega, get, low_tail⟩
      · simp [tailbit] at is_tail

theorem countP_set {items : List (HeapItem σ Key Term)}
    (get : items[place]? = some low) (low_tail : low.tailbit = true) (new : HeapItem σ Key Term) :
    (items.set place new).countP (·.tailbit) + 1 =
      items.countP (·.tailbit) + new.tailbit.toNat := by
  rw [(set_perm get new).countP_eq, (perm_cons_eraseIdx get).countP_eq, countP_cons,
    countP_cons, low_tail]
  cases new.tailbit <;> simp

variable {p : AndRfd σ Key Term}

/-- Items of which each is a tail or beyond the record: the record is being given, or done with. -/
theorem AndHolds.of_tails {ms : List (Multiset (Key × Term))}
    (nonempty : p.items ≠ []) (count : p.tailcount = p.items.countP (·.tailbit))
    (no_skip : p.skip = false) (items_tail : List.Forall₂ (Tail kc holds r) p.items ms)
    (eof : p.eof = true ↔ 0 ∈ ms) : AndHolds kc holds p (tails kc r ms) := by
  by_cases finished : p.tailcount = 0
  · -- no item is a tail, so no key of the record is left
    have far : ∀ item ∈ ms.sum, ¬kc.Near r item.1 := by
      intro item mem
      obtain ⟨m, m_mem, item_mem⟩ := mem_sum.mp mem
      obtain ⟨heapItem, heapItem_mem, tail⟩ := forall₂_mem_right items_tail m_mem
      cases tail with
      | tail tailbit _ _ _ =>
        exact absurd tailbit (countP_eq_zero.mp (count.symm.trans finished) _ heapItem_mem)
      | beyond _ _ beyond _ => exact kc.far_of_beyond (beyond item item_mem)
    rw [tails_eq_common far]
    exact .aligning finished nonempty (items_tail.imp fun _ _ => Tail.pending) eof
  · exact .tailing finished count no_skip items_tail eof

/-- While a record is given, nothing left is below the lowest tail. -/
theorem lowest_least {items : List (HeapItem σ Key Term)} {ms : List (Multiset (Key × Term))}
    (items_tail : List.Forall₂ (Tail kc holds r) items ms)
    (near : kc.Near r low.buf)
    (below : ∀ item ∈ items, item.tailbit = true → kc.cmp low.buf item.buf ≤ 0) :
    ∀ other ∈ ms.sum, kc.cmp low.buf other.1 ≤ 0 := by
  intro other mem
  obtain ⟨m, m_mem, other_mem⟩ := mem_sum.mp mem
  obtain ⟨item, item_mem, tail⟩ := forall₂_mem_right items_tail m_mem
  cases tail with
  | tail tailbit _ held least =>
    have pending : Pending kc holds item _ := .ahead held least
    exact kc.le_trans (below item item_mem tailbit)
      ((pending.least (cons_ne_zero)).2 other other_mem)
  | beyond _ _ beyond _ =>
    have beyond := kc.beyond_of_near near (beyond other other_mem)
    have pos := kc.scope_pos
    omega

theorem zero_mem_set {ms : List (Multiset (Key × Term))}
    (get : ms[place]? = some m) (ne : m ≠ 0) (new : Multiset (Key × Term)) :
    0 ∈ ms.set place new ↔ new = 0 ∨ 0 ∈ ms := by
  rw [(set_perm get new).mem_iff, (perm_cons_eraseIdx get).mem_iff, mem_cons, mem_cons]
  constructor
  · rintro (zero | mem)
    · exact .inl zero.symm
    · exact .inr (.inr mem)
  · rintro (rfl | zero | mem)
    · exact .inl rfl
    · exact absurd zero.symm ne
    · exact .inr mem

theorem set_ne_nil {α : Type} {l : List α} {a : α} (get : l[place]? = some a) (new : α) :
    l.set place new ≠ [] := by
  intro nil
  have perm := set_perm get new
  rw [nil] at perm
  exact absurd perm.length_eq (by simp)

theorem readTail_spec (yields : Yields kc c holds)
    {ms : List (Multiset (Key × Term))}
    (count : p.tailcount = p.items.countP (·.tailbit)) (no_skip : p.skip = false)
    (items_tail : List.Forall₂ (Tail kc holds r) p.items ms) (eof : p.eof = true ↔ 0 ∈ ms)
    (get : p.items[place]? = some low) (low_tail : low.tailbit = true)
    (below : ∀ item ∈ p.items, item.tailbit = true → kc.cmp low.buf item.buf ≤ 0) :
    ∃ p', Settles (fun fuel => readTail kc c fuel p place low) p' ∧ p'.skip = false ∧
      Delivers kc (AndHolds kc holds) (tails kc r ms) (some (low.buf, low.term), p') := by
  obtain ⟨m, m_get, low_holds⟩ := forall₂_getElem? items_tail get
  cases low_holds with
  | beyond tailbit _ _ _ => simp [low_tail] at tailbit
  | @tail rest _ near held least =>
    obtain ⟨⟨item, fd⟩, settles, delivers⟩ := yields.rsetDefaultRead held
    have left_eq : tails kc r ms = (low.buf, low.term) ::ₘ tails kc r (ms.set place rest) := by
      rw [tails_perm (perm_cons_eraseIdx m_get), tails_cons near, tails_perm (set_perm m_get rest)]
    have left_least : ∀ other ∈ tails kc r (ms.set place rest), kc.cmp low.buf other.1 ≤ 0 := by
      intro other mem
      have mem_tails : other ∈ tails kc r ms := left_eq ▸ Multiset.mem_cons_of_mem mem
      exact lowest_least items_tail near below other (mem_sum_of_mem_tails mem_tails)
    have eof_set := zero_mem_set m_get cons_ne_zero rest
    rw [left_eq]
    cases delivers with
    | eof empty =>
      refine ⟨_, settles.bind (.pure _), no_skip, .key (.of_tails (set_ne_nil get _) ?_ no_skip
        (forall₂_set items_tail place (.beyond rfl (.ended empty) (by simp) near.2)) ?_) left_least⟩
      · have count_set := countP_set get low_tail { low with fd, tailbit := false }
        simp only [Bool.toNat_false] at count_set
        simp only [count]
        omega
      · simpa using eof_set
    | @key item rest' _ left item_least =>
      have not_empty : ¬item ::ₘ rest' = 0 := cons_ne_zero
      have next_le := least item (Multiset.mem_cons_self _ _)
      have swap := kc.swap low.buf item.1
      have pos := kc.scope_pos
      by_cases same : kc.cmp item.1 low.buf ≥ kc.scope
      · have beyond : ∀ other ∈ item ::ₘ rest', kc.cmp r other.1 ≤ -kc.scope := by
          have beyond : kc.cmp r item.1 ≤ -kc.scope :=
            kc.beyond_of_near (kc.near_symm near) (by omega)
          intro other mem
          rcases Multiset.mem_cons.mp mem with rfl | mem
          · exact beyond
          · exact kc.beyond_mono beyond (item_least other mem)
        have ahead : Pending kc holds ⟨fd, item.1, item.2, false⟩ (item ::ₘ rest') :=
          .ahead left item_least
        have next : Tail kc holds r ⟨fd, item.1, item.2, false⟩ (item ::ₘ rest') :=
          .beyond rfl ahead beyond
            (by have := beyond item (Multiset.mem_cons_self _ _); simp only; omega)
        refine ⟨{ p with
          items := p.items.set place ⟨fd, item.1, item.2, false⟩
          tailcount := p.tailcount - 1 }, settles.bind ?_, no_skip,
          .key (.of_tails (set_ne_nil get _) ?_ no_skip (forall₂_set items_tail place next) ?_)
            left_least⟩
        · simp only [if_pos same]
          exact .pure _
        · have count_set := countP_set get low_tail ⟨fd, item.1, item.2, false⟩
          simp only [Bool.toNat_false] at count_set
          simp only [count]
          omega
        · simpa [not_empty, eof] using eof_set.symm
      · have near_item : kc.Near low.buf item.1 := ⟨by omega, by omega⟩
        have next : Tail kc holds r ⟨fd, item.1, item.2, low.tailbit⟩ (item ::ₘ rest') :=
          .tail low_tail (kc.near_trans near near_item) left item_least
        refine ⟨{ p with items := p.items.set place ⟨fd, item.1, item.2, low.tailbit⟩ },
          settles.bind ?_, no_skip,
          .key (.of_tails (set_ne_nil get _) ?_ no_skip (forall₂_set items_tail place next) ?_)
            left_least⟩
        · simp only [if_neg same]
          exact .pure _
        · have count_set := countP_set get low_tail ⟨fd, item.1, item.2, low.tailbit⟩
          simp only [low_tail, Bool.toNat_true] at count_set
          simp only [count, low_tail]
          omega
        · simpa [not_empty, eof] using eof_set.symm

/-- Keys a scope before `untilbuf`, which a forward may leave out. -/
def BehindUntil (kc : KeyControl Key) (untilbuf key : Key) : Prop :=
  kc.scope ≤ kc.cmp untilbuf key

instance (untilbuf : Key) : DecidablePred (BehindUntil kc untilbuf) :=
  fun _ => inferInstanceAs (Decidable (_ ≤ _))

theorem ofRecords_behindUntil (untilbuf : Key) : OfRecords kc (BehindUntil kc untilbuf) := by
  intro a b near behind
  have swap_a := kc.swap a untilbuf
  have swap_b := kc.swap b untilbuf
  have beyond := kc.beyond_of_near (c := untilbuf) near (by unfold BehindUntil at behind; omega)
  unfold BehindUntil
  omega

theorem Pending.forward (yields : Yields kc c holds) {untilbuf : Key}
    (pending : Pending kc holds item m)
    (behind : kc.cmp item.buf untilbuf ≤ -kc.scope) :
    ∃ out left, Settles (fun fuel => rsetDefaultForward kc c fuel item.fd untilbuf) out ∧
      Delivers kc (Rsfd.Holds holds) left out ∧
      (∃ skipped : Multiset (Key × Term), m = skipped + left ∧
        ∀ key ∈ skipped, BehindUntil kc untilbuf key.1) ∧
      (m ≠ 0 → left.card < m.card) := by
  cases pending with
  | ahead held least =>
    obtain ⟨out, settles, skipped, left, rest_eq, skipped_behind, delivers⟩ :=
      yields.rsetDefaultForward untilbuf held
    refine ⟨out, left, settles, delivers, ⟨(item.buf, item.term) ::ₘ skipped, ?_, ?_⟩, fun _ => ?_⟩
    · rw [rest_eq, Multiset.cons_add]
    · have swap := kc.swap item.buf untilbuf
      refine Multiset.forall_mem_cons.mpr ⟨?_, skipped_behind⟩
      simp only [BehindUntil]
      omega
    · rw [rest_eq, Multiset.card_cons, card_add]
      omega
  | ended held =>
    obtain ⟨out, settles, skipped, left, zero_eq, skipped_behind, delivers⟩ :=
      yields.rsetDefaultForward untilbuf held
    exact ⟨out, left, settles, delivers, ⟨skipped, zero_eq, skipped_behind⟩,
      fun ne => absurd rfl ne⟩

/-- Forwarding an item to the key of another one leaves out nothing that is common. -/
theorem forward_item (yields : Yields kc c holds) {items : List (HeapItem σ Key Term)}
    {ms : List (Multiset (Key × Term))} (pending : List.Forall₂ (Pending kc holds) items ms)
    (all_ahead : 0 ∉ ms) {k j : Nat} (ne : k ≠ j) {item other : HeapItem σ Key Term}
    (get_item : items[k]? = some item) (get_other : items[j]? = some other)
    (behind : kc.cmp item.buf other.buf ≤ -kc.scope) :
    ∃ out left, Settles (fun fuel => rsetDefaultForward kc c fuel item.fd other.buf) out ∧
      Delivers kc (Rsfd.Holds holds) left out ∧ common kc (ms.set k left) = common kc ms ∧
      (ms.set k left).sum.card < ms.sum.card ∧ (0 ∈ ms.set k left ↔ left = 0) := by
  obtain ⟨m, m_get, item_pending⟩ := forall₂_getElem? pending get_item
  obtain ⟨m', m'_get, other_pending⟩ := forall₂_getElem? pending get_other
  have ne_zero {i : Nat} {m : Multiset (Key × Term)} (get : ms[i]? = some m) : m ≠ 0 :=
    fun zero => all_ahead (zero ▸ mem_of_getElem? get)
  obtain ⟨out, left, settles, delivers, ⟨skipped, m_eq, skipped_behind⟩, card_lt⟩ :=
    item_pending.forward yields behind
  have m'_mem : m' ∈ ms.eraseIdx k :=
    mem_eraseIdx_iff_getElem?.mpr ⟨j, ne.symm, m'_get⟩
  -- all that is left out is a scope behind what the other item still gives
  have far : ∀ key ∈ skipped, ∀ key' ∈ m', ¬kc.Near key.1 key'.1 := by
    intro key key_mem key' key'_mem
    have le := (other_pending.least (ne_zero m'_get)).2 key' key'_mem
    have swap := kc.swap key.1 other.buf
    have behind_key : kc.scope ≤ kc.cmp other.buf key.1 := skipped_behind key key_mem
    exact kc.far_of_beyond (kc.beyond_mono (by omega) le)
  have perm_ms := perm_cons_eraseIdx m_get
  have perm_set := set_perm m_get left
  refine ⟨out, left, settles, delivers, ?_, ?_, ?_⟩
  · rw [common_perm perm_set, common_perm perm_ms, m_eq, common_skip m'_mem far]
  · have card_lt := card_lt (ne_zero m_get)
    rw [perm_set.sum_eq, perm_ms.sum_eq]
    simp only [sum_cons, card_add]
    omega
  · simp [zero_mem_set m_get (ne_zero m_get), all_ahead]

/-- What the loop of forwards leads to. -/
structure Aligned (kc : KeyControl Key) (holds : σ → Multiset (Key × Term) → Prop)
    (m : Multiset (Key × Term)) (found : Bool) (items : List (HeapItem σ Key Term))
    (ms : List (Multiset (Key × Term))) : Prop where
  pending : List.Forall₂ (Pending kc holds) items ms
  nonempty : items ≠ []
  common : common kc ms = m
  ended : found = false ↔ 0 ∈ ms
  near : found = true → ∃ first, items[0]? = some first ∧ ∀ item ∈ items, kc.Near first.buf item.buf

theorem Delivers.ne_zero {key : Key × Term} {s : σ}
    (delivers : Delivers kc holds m (some key, s)) : m ≠ 0 := by
  cases delivers with
  | key _ _ => exact cons_ne_zero

theorem Aligned.of_ended {items : List (HeapItem σ Key Term)} {ms : List (Multiset (Key × Term))}
    {k : Nat} {fd : Rsfd σ Key} {left m : Multiset (Key × Term)}
    (pending : List.Forall₂ (Pending kc holds) items ms) (get_item : items[k]? = some item)
    (delivers : Delivers kc (Rsfd.Holds holds) left (none, fd))
    (common_eq : Zebra.Rset.common kc (ms.set k left) = m)
      (zero_mem : 0 ∈ ms.set k left ↔ left = 0) :
    Aligned kc holds m false (items.set k { item with fd }) (ms.set k left) := by
  cases delivers with
  | eof empty =>
    exact ⟨forall₂_set pending k (.ended empty), set_ne_nil get_item _,
      common_eq, by simp [zero_mem],
      by simp⟩

theorem align_spec (yields : Yields kc c holds) {items : List (HeapItem σ Key Term)}
    {ms : List (Multiset (Key × Term))} {i : Nat} {first : HeapItem σ Key Term}
    (pending : List.Forall₂ (Pending kc holds) items ms) (all_ahead : 0 ∉ ms)
    (get_first : items[0]? = some first)
    (near : ∀ j < i, ∀ item, items[j]? = some item → kc.Near first.buf item.buf) :
    ∃ found items' ms', Settles (fun fuel => align kc c fuel items i) (found, items') ∧
      Aligned kc holds (common kc ms) found items' ms' := by
  have length_eq : items.length = ms.length := pending.length_eq
  cases get_item : items[i]? with
  | none =>
    refine ⟨true, items, ms, .succ ?_, pending, ?_, rfl, by simp [all_ahead], fun _ =>
      ⟨first, get_first, fun item mem => ?_⟩⟩
    · simp only [align, get_first, get_item]
      exact .pure _
    · rintro rfl
      simp at get_first
    · obtain ⟨j, get⟩ := mem_iff_getElem?.mp mem
      refine near j ?_ item get
      have lt := (List.getElem?_eq_some_iff.mp get).1
      have le := List.getElem?_eq_none_iff.mp get_item
      omega
  | some item =>
    have i_lt := (List.getElem?_eq_some_iff.mp get_item).1
    by_cases behind : kc.cmp first.buf item.buf ≤ -kc.scope
    · have ne : 0 ≠ i := by
        rintro rfl
        rw [get_first] at get_item
        cases get_item
        exact kc.far_of_beyond behind (kc.near_refl _)
      obtain ⟨⟨key, fd⟩, left, settles, delivers, common_eq, card_lt, zero_mem⟩ :=
        forward_item yields pending all_ahead ne get_first get_item behind
      have round (fuel : Nat) : align kc c (fuel + 1) items i =
          rsetDefaultForward kc c fuel first.fd item.buf >>= fun out =>
            out.1.elim (some (false, items.set 0 { first with fd := out.2 })) fun key =>
              align kc c fuel
                (items.set 0 { first with fd := out.2, buf := key.1, term := key.2 }) 0 := by
        simp only [align, get_first, get_item, if_pos behind]
        refine bind_congr fun out => ?_
        rcases out with ⟨_ | ⟨buf, term⟩, fd⟩ <;> rfl
      cases key with
      | none =>
        exact ⟨_, _, _, .step round settles (.pure _),
          .of_ended pending get_first delivers common_eq zero_mem⟩
      | some key =>
        obtain ⟨buf, term⟩ := key
        have ahead : 0 ∉ ms.set 0 left := fun mem => delivers.ne_zero (zero_mem.mp mem)
        obtain ⟨found, items', ms', later, aligned⟩ :=
          align_spec (i := 0) yields (forall₂_set pending 0 (pending_of_key delivers)) ahead
            (getElem?_set_self (List.getElem?_eq_some_iff.mp get_first).1) (by simp)
        rw [common_eq] at aligned
        exact ⟨found, items', ms', .step round settles later, aligned⟩
    · by_cases in_front : kc.cmp first.buf item.buf ≥ kc.scope
      · have behind' : kc.cmp item.buf first.buf ≤ -kc.scope := by
          have swap := kc.swap item.buf first.buf
          omega
        have ne : i ≠ 0 := by
          rintro rfl
          rw [get_first] at get_item
          cases get_item
          exact kc.far_of_beyond behind' (kc.near_refl _)
        obtain ⟨⟨key, fd⟩, left, settles, delivers, common_eq, card_lt, zero_mem⟩ :=
          forward_item yields pending all_ahead ne get_item get_first behind'
        have round (fuel : Nat) : align kc c (fuel + 1) items i =
            rsetDefaultForward kc c fuel item.fd first.buf >>= fun out =>
              out.1.elim (some (false, items.set i { item with fd := out.2 })) fun key =>
                align kc c fuel
                  (items.set i { item with fd := out.2, buf := key.1, term := key.2 }) i := by
          simp only [align, get_first, get_item, if_neg behind, if_pos in_front]
          refine bind_congr fun out => ?_
          rcases out with ⟨_ | ⟨buf, term⟩, fd⟩ <;> rfl
        cases key with
        | none =>
          exact ⟨_, _, _, .step round settles (.pure _),
            .of_ended pending get_item delivers common_eq zero_mem⟩
        | some key =>
          obtain ⟨buf, term⟩ := key
          have ahead : 0 ∉ ms.set i left := fun mem => delivers.ne_zero (zero_mem.mp mem)
          have get_first' : (items.set i { item with fd, buf, term })[0]? = some first := by
            rw [getElem?_set_ne ne]
            exact get_first
          have near' : ∀ j < i, ∀ other,
              (items.set i { item with fd, buf, term })[j]? = some other →
              kc.Near first.buf other.buf := by
            intro j lt other get
            rw [getElem?_set_ne (by omega)] at get
            exact near j lt other get
          obtain ⟨found, items', ms', later, aligned⟩ :=
            align_spec yields (forall₂_set pending i (pending_of_key delivers)) ahead
              get_first' near'
          rw [common_eq] at aligned
          exact ⟨found, items', ms', .step round settles later, aligned⟩
      · have near' : ∀ j < i + 1, ∀ other, items[j]? = some other →
            kc.Near first.buf other.buf := by
          intro j lt other get
          rcases Nat.lt_succ_iff_lt_or_eq.mp lt with lt | rfl
          · exact near j lt other get
          · rw [get_item] at get
            cases get
            exact ⟨by omega, by omega⟩
        obtain ⟨found, items', ms', later, aligned⟩ :=
          align_spec yields pending all_ahead get_first near'
        refine ⟨found, items', ms', .succ ?_, aligned⟩
        simpa only [align, get_first, get_item, if_neg behind, if_neg in_front] using later
termination_by (ms.sum.card, items.length - i)
decreasing_by
  · exact .left _ _ card_lt
  · exact .left _ _ card_lt
  · exact .right _ (by omega)

/-- `r_read_and` within a record. -/
theorem rReadAnd_tailing (yields : Yields kc c holds) (no_segments : kc.getSegment = none)
    {ms : List (Multiset (Key × Term))} (tailing : p.tailcount ≠ 0)
    (count : p.tailcount = p.items.countP (·.tailbit)) (no_skip : p.skip = false)
    (items_tail : List.Forall₂ (Tail kc holds r) p.items ms) (eof : p.eof = true ↔ 0 ∈ ms) :
    ∃ out, Settles (fun fuel => rReadAnd kc c fuel p) out ∧
      Delivers kc (AndHolds kc holds) (tails kc r ms) out := by
  cases lowest : mintail kc p.items 0 none with
  | none =>
    have no_tails := (mintail_eq_none lowest).2
    exact absurd (count.trans (countP_eq_zero.mpr (by simpa using no_tails))) tailing
  | some found =>
    obtain ⟨place, low⟩ := found
    obtain ⟨origin, -, below⟩ := mintail_spec lowest
    rcases origin with start | ⟨j, place_eq, get, low_tail⟩
    · simp at start
    obtain rfl : place = j := by omega
    obtain ⟨p', settles, no_skip', delivers⟩ :=
      readTail_spec yields count no_skip items_tail eof get low_tail below
    have round (fuel : Nat) : rReadAnd kc c (fuel + 1) p =
        readTail kc c fuel p place low >>= fun p =>
        if p.skip then rReadAnd kc c fuel p else some (some (low.buf, low.term), p) := by
      simp only [rReadAnd, if_pos tailing, lowest, checkSegments, no_segments]
    refine ⟨_, .step round settles ?_, delivers⟩
    simp only [no_skip', Bool.false_eq_true, if_false]
    exact .pure _

/-- All children agree on a record: their items become its tails. -/
theorem Aligned.tails {items : List (HeapItem σ Key Term)}
    {ms : List (Multiset (Key × Term))} (aligned : Aligned kc holds m true items ms) :
    ∃ r, m = tails kc r ms ∧
      List.Forall₂ (Tail kc holds r) (items.map fun item => { item with tailbit := true }) ms := by
  obtain ⟨first, -, near⟩ := aligned.near rfl
  have all_ahead : 0 ∉ ms := fun mem => by simpa using aligned.ended.mpr mem
  refine ⟨first.buf, ?_, List.forall₂_map_left_iff.mpr ?_⟩
  · rw [← aligned.common]
    refine common_eq_tails fun m mem => ?_
    obtain ⟨item, item_mem, pending⟩ := forall₂_mem_right aligned.pending mem
    have least := pending.least fun zero => all_ahead (zero ▸ mem)
    exact ⟨_, least.1, near item item_mem⟩
  · refine forall₂_imp_mem aligned.pending fun item item_mem m mem pending => ?_
    cases pending with
    | ended _ => exact absurd mem all_ahead
    | @ahead rest held least =>
      exact .tail rfl (near item item_mem) held least

/-- `r_read_and` gives a least key of what is left. -/
theorem rReadAnd_spec (yields : Yields kc c holds) (no_segments : kc.getSegment = none)
    (held : AndHolds kc holds p m) :
    ∃ out, Settles (fun fuel => rReadAnd kc c fuel p) out ∧
      Delivers kc (AndHolds kc holds) m out := by
  cases held with
  | tailing tailing count no_skip items_tail eof =>
    exact rReadAnd_tailing yields no_segments tailing count no_skip items_tail eof
  | @aligning ms no_tails nonempty pending eof =>
    cases at_end : p.eof with
    | true =>
      have zero := (common_eq_zero (eof.mp at_end) : common kc ms = 0)
      refine ⟨(none, p), .succ ?_, ?_⟩
      · simp only [rReadAnd, no_tails, ne_eq, not_true_eq_false, if_false, at_end, if_true]
        exact .pure _
      · have left := AndHolds.aligning no_tails nonempty pending eof
        rw [zero] at left ⊢
        exact .eof left
    | false =>
      have all_ahead : 0 ∉ ms := fun mem => by simpa [at_end] using eof.mpr mem
      obtain ⟨first, get_first⟩ : ∃ first, p.items[0]? = some first := by
        cases items : p.items with
        | nil => exact absurd items nonempty
        | cons first _ => exact ⟨first, rfl⟩
      obtain ⟨found, items, ms', settles, aligned⟩ :=
        align_spec (i := 1) yields pending all_ahead get_first (by
          intro j lt item get
          obtain rfl : j = 0 := by omega
          rw [get_first] at get
          cases get
          exact kc.near_refl _)
      have round (fuel : Nat) : rReadAnd kc c (fuel + 1) p =
          align kc c fuel p.items 1 >>= fun out =>
          if out.1 then
            rReadAnd kc c fuel { p with
              items := out.2.map fun item => { item with tailbit := true }
              tailcount := out.2.length
              segment := 0
              skip := false }
          else some (none, { p with items := out.2, eof := true }) := by
        simp only [rReadAnd, no_tails, ne_eq, not_true_eq_false, if_false, at_end,
          Bool.false_eq_true]
      cases found with
      | true =>
        obtain ⟨r, common_eq, items_tail⟩ := aligned.tails
        rw [common_eq]
        have length_ne : items.length ≠ 0 := by simpa using aligned.nonempty
        obtain ⟨out, later, delivers⟩ := rReadAnd_tailing yields no_segments
          (p := { p with
            items := items.map fun item => { item with tailbit := true }
            tailcount := items.length
            segment := 0
            skip := false })
          length_ne (by simp [countP_map, Function.comp_def]) rfl items_tail
          (by simpa [at_end] using aligned.ended)
        exact ⟨out, .step round settles later, delivers⟩
      | false =>
        have zero := aligned.common.symm.trans (common_eq_zero (aligned.ended.mp rfl))
        refine ⟨_, .step round settles (.pure _), ?_⟩
        have left := AndHolds.aligning
            (p := { p with items, eof := true }) no_tails aligned.nonempty
          aligned.pending (by simpa using aligned.ended)
        rw [common_eq_zero (aligned.ended.mp rfl)] at left
        rw [zero]
        exact .eof left

theorem forwardItems_spec (yields : Yields kc c holds) (untilbuf : Key)
    {items : List (HeapItem σ Key Term)} {ms : List (Multiset (Key × Term))}
    (pending : List.Forall₂ (Pending kc holds) items ms) :
    ∃ ended killtail items' ms',
      Settles (fun fuel => forwardItems kc c fuel untilbuf items) (ended, killtail, items') ∧
      List.Forall₂ (Pending kc holds) items' ms' ∧ Skips (BehindUntil kc untilbuf) ms ms' ∧
      (ended = true → 0 ∈ ms') ∧ (ended = false → (0 ∈ ms' ↔ 0 ∈ ms)) ∧
      (killtail = false → ended = false ∧ items' = items) ∧
      (killtail = true → ∃ item ∈ items, kc.cmp item.buf untilbuf ≤ -kc.scope) := by
  induction pending with
  | nil => exact ⟨false, false, [], [], .pure _, .nil, .nil, by simp, by simp, by simp, by simp⟩
  | @cons item m items ms item_pending pending ih =>
    obtain ⟨ended, killtail, items', ms', settles, pending', skips, of_ended, of_going, unchanged,
      behind_mem⟩ := ih
    by_cases behind : kc.cmp item.buf untilbuf ≤ -kc.scope
    · have mem : ∃ item' ∈ item :: items, kc.cmp item'.buf untilbuf ≤ -kc.scope :=
        ⟨item, .head _, behind⟩
      obtain ⟨⟨key, fd⟩, left, forwards, delivers, skipped, -⟩ := item_pending.forward yields behind
      simp only [forwardItems, if_pos behind]
      cases key with
      | none =>
        cases delivers with
        | eof empty =>
          exact ⟨true, true, _, 0 :: ms, forwards.bind (.pure _),
            .cons (.ended empty) pending,
              .cons skipped (Skips.refl _ ms), by simp, by simp, by simp,
            fun _ => mem⟩
      | some key =>
        have left_ne := delivers.ne_zero
        have m_ne : m ≠ 0 := by
          rintro rfl
          obtain ⟨_, zero_eq, -⟩ := skipped
          have card_eq := congrArg Multiset.card zero_eq
          rw [Multiset.card_zero, card_add] at card_eq
          exact left_ne (Multiset.card_eq_zero.mp (by omega))
        refine ⟨ended, true, _, left :: ms', forwards.bind (settles.bind (.pure _)),
          .cons (pending_of_key delivers) pending', .cons skipped skips, ?_, ?_, by simp,
          fun _ => mem⟩
        · exact fun is_ended => .tail _ (of_ended is_ended)
        · intro going
          simp [of_going going, left_ne.symm, m_ne.symm]
    · simp only [forwardItems, if_neg behind]
      refine ⟨ended, killtail, item :: items', m :: ms', settles.bind (.pure _),
        .cons item_pending pending',
          .cons ⟨0, (Multiset.zero_add m).symm, by simp⟩ skips, ?_, ?_, ?_, ?_⟩
      · exact fun is_ended => .tail _ (of_ended is_ended)
      · intro going
        simp [of_going going]
      · intro none_behind
        exact ⟨(unchanged none_behind).1, congrArg _ (unchanged none_behind).2⟩
      · intro some_behind
        obtain ⟨other, other_mem, other_behind⟩ := behind_mem some_behind
        exact ⟨other, .tail _ other_mem, other_behind⟩

theorem record_behind {items : List (HeapItem σ Key Term)} {ms : List (Multiset (Key × Term))}
    {untilbuf : Key} (items_tail : List.Forall₂ (Tail kc holds r) items ms) (mem : item ∈ items)
    (behind : kc.cmp item.buf untilbuf ≤ -kc.scope) : BehindUntil kc untilbuf r := by
  obtain ⟨m, -, tail⟩ := forall₂_mem_left items_tail mem
  have not_before : kc.cmp r item.buf < kc.scope := by
    cases tail with
    | tail _ near _ _ => exact near.2
    | beyond _ _ _ not_before => exact not_before
  have pos := kc.scope_pos
  have swap := kc.swap r untilbuf
  have swap_item := kc.swap r item.buf
  have swap_until := kc.swap item.buf untilbuf
  have chain := kc.chain r item.buf untilbuf
  have chain' := kc.chain item.buf r untilbuf
  have chain'' := kc.chain item.buf untilbuf r
  simp only [BehindUntil]
  omega

theorem Pending.with_tailbit
    (pending : Pending kc holds item m) (tailbit : Bool) :
    Pending kc holds { item with tailbit } m := by
  cases pending with
  | ahead held least => exact .ahead held least
  | ended empty => exact .ended empty

/-- What is left to give, seen from the lookahead: when an item is behind `untilbuf`, what is left
and not behind is what the children have in common. -/
theorem AndHolds.lookahead
    (held : AndHolds kc holds p m) (untilbuf : Key) :
    ∃ ms, List.Forall₂ (Pending kc holds) p.items ms ∧ p.items ≠ [] ∧ (p.eof = true ↔ 0 ∈ ms) ∧
      common kc ms ≤ m ∧ ∀ item ∈ p.items, kc.cmp item.buf untilbuf ≤ -kc.scope →
        m.filter (fun key => ¬BehindUntil kc untilbuf key.1) =
          (common kc ms).filter (fun key => ¬BehindUntil kc untilbuf key.1) := by
  cases held with
  | @aligning ms no_tails nonempty pending eof =>
    exact ⟨ms, pending, nonempty, eof, le_rfl, fun _ _ _ => rfl⟩
  | @tailing r ms tailing count _ items_tail eof =>
    refine ⟨ms, items_tail.imp fun _ _ => Tail.pending, ?_, eof, common_le_tails r, ?_⟩
    · rintro nil
      rw [nil] at count
      exact tailing count
    · intro item mem behind
      exact tails_filter (ofRecords_behindUntil untilbuf) (record_behind items_tail mem behind)

/-- `r_forward_and` may leave out keys that are behind, and then gives a least key of the rest. -/
theorem rForwardAnd_spec (yields : Yields kc c holds) (no_segments : kc.getSegment = none)
    (untilbuf : Key)
    (held : AndHolds kc holds p m) :
    ∃ out, Settles (fun fuel => rForwardAnd kc c fuel p untilbuf) out ∧
      Forwards kc (AndHolds kc holds) untilbuf m out := by
  obtain ⟨ms, pending, nonempty, eof, common_le, not_behind⟩ := held.lookahead untilbuf
  obtain ⟨ended, killtail, items', ms', settles, pending', skips, of_ended, of_going, unchanged,
    behind_mem⟩ := forwardItems_spec yields untilbuf pending
  cases killtail with
  | false =>
    obtain ⟨rfl, rfl⟩ := unchanged rfl
    obtain ⟨out, reads, delivers⟩ := rReadAnd_spec yields no_segments held
    exact ⟨out, settles.bind reads, 0, m, (Multiset.zero_add m).symm, by simp, delivers⟩
  | true =>
    obtain ⟨item, item_mem, behind⟩ := behind_mem rfl
    obtain ⟨skipped, m_eq, skipped_behind⟩ := exists_skipped (skips.common_le.trans common_le)
      ((not_behind item item_mem behind).trans
        (skips.common_filter (ofRecords_behindUntil untilbuf)))
    have nonempty' : items' ≠ [] := by
      rintro rfl
      have length_eq := pending.length_eq.trans (skips.length_eq.trans pending'.length_eq.symm)
      exact nonempty (length_eq_zero_iff.mp length_eq)
    cases ended with
    | true =>
      have left := AndHolds.aligning (p := { p with items := items', eof := true, tailcount := 0 })
        rfl nonempty' pending' (by simpa using of_ended rfl)
      refine ⟨_, settles.bind (.pure _), skipped, 0, ?_, skipped_behind, .eof ?_⟩
      · rw [m_eq, common_eq_zero (of_ended rfl)]
      · rwa [common_eq_zero (of_ended rfl)] at left
    | false =>
      obtain ⟨out, reads, delivers⟩ := rReadAnd_spec yields no_segments
        (AndHolds.aligning (p := { p with
            items := items'.map fun item => { item with tailbit := false }
            tailcount := 0 })
          rfl (by simpa using nonempty')
          (List.forall₂_map_left_iff.mpr
            (pending'.imp fun _ _ pending => pending.with_tailbit false))
          (by simpa [of_going rfl] using eof))
      exact ⟨out, settles.bind reads, skipped, _, m_eq, skipped_behind, delivers⟩

theorem controlAnd_yields (yields : Yields kc c holds) (no_segments : kc.getSegment = none) :
    Yields kc (controlAnd kc c) (AndHolds kc holds) where
  read _ _ held := rReadAnd_spec yields no_segments held
  forward := by
    rintro _ ⟨⟩ s m untilbuf held
    exact rForwardAnd_spec yields no_segments untilbuf held

variable {children : List (RSet σ)}

theorem openItems_spec [Inhabited Key] [Inhabited Term] (yields : Yields kc c holds)
    {ms : List (Multiset (Key × Term))}
    (held : List.Forall₂ (fun child m => holds child.fOpen m) children ms) :
    ∃ items eof, Settles (fun fuel => openItems kc c fuel children) (items, eof) ∧
      List.Forall₂ (Pending kc holds) items ms ∧ (eof = true ↔ 0 ∈ ms) := by
  induction held with
  | nil => exact ⟨[], false, .pure _, .nil, by simp⟩
  | @cons child m children ms child_holds _ ih =>
    obtain ⟨items, eof, settles, pending, at_end⟩ := ih
    have open_holds : (rsetOpen child : Rsfd σ Key).Holds holds m := child_holds
    obtain ⟨⟨key, fd⟩, reads, delivers⟩ := yields.rsetDefaultRead open_holds
    cases delivers with
    | eof empty =>
      exact ⟨_, true, reads.bind (settles.bind (.pure _)), .cons (.ended empty) pending, by simp⟩
    | @key item rest _ left least =>
      refine ⟨_, eof, reads.bind (settles.bind (.pure _)),
        .cons (.ahead left least) pending, ?_⟩
      rw [at_end, mem_cons]
      exact ⟨.inr, fun mem => mem.resolve_left fun zero => cons_ne_zero zero.symm⟩

theorem rOpenAnd_spec [Inhabited Key] [Inhabited Term] (yields : Yields kc c holds)
    {order : List (HeapItem σ Key Term) → List (HeapItem σ Key Term)}
    (sorts : ∀ items, (order items).Perm items)
    {ms : List (Multiset (Key × Term))} (nonempty : children ≠ [])
    (held : List.Forall₂ (fun child m => holds child.fOpen m) children ms) :
    ∃ p, Settles (fun fuel => rOpenAnd kc c order fuel children) p ∧
      AndHolds kc holds p (common kc ms) := by
  obtain ⟨items, eof, settles, pending, at_end⟩ := openItems_spec yields held
  obtain ⟨ms', pending', perm⟩ := List.perm_comp_forall₂ (sorts items) pending
  refine ⟨_, settles.bind (.pure _), ?_⟩
  rw [← common_perm perm]
  refine .aligning rfl ?_ pending' (by rw [at_end, perm.mem_iff])
  intro nil
  have length_eq := (sorts items).length_eq.trans (pending.length_eq.trans held.length_eq.symm)
  simp only at nil
  rw [nil] at length_eq
  exact nonempty (length_eq_zero_iff.mp length_eq.symm)

/-- All that is read of a set made by `rset_create_and`, from opening it to its end. -/
def readAllAnd [Inhabited Key] [Inhabited Term] (kc : KeyControl Key) (c : RsetControl σ Key Term)
    (order : List (HeapItem σ Key Term) → List (HeapItem σ Key Term)) (hitsLimit : Nat)
    (children : List (RSet σ)) (fuel : Nat) : Option (List (Key × Term)) := do
  let p ← rOpenAnd kc c order fuel children
  rsetReadAll kc (controlAnd kc c) fuel (rsetOpen { hitsLimit, fOpen := p })

theorem readAllAnd_spec [Inhabited Key] [Inhabited Term] (yields : Yields kc c holds)
    (no_segments : kc.getSegment = none)
    {order : List (HeapItem σ Key Term) → List (HeapItem σ Key Term)}
    (sorts : ∀ items, (order items).Perm items) (hitsLimit : Nat)
    {ms : List (Multiset (Key × Term))} (nonempty : children ≠ [])
    (held : List.Forall₂ (fun child m => holds child.fOpen m) children ms) :
    ∃ keys, Settles (readAllAnd kc c order hitsLimit children) keys ∧
      (keys : Multiset _) = common kc ms ∧ keys.Pairwise fun a b => kc.cmp a.1 b.1 ≤ 0 := by
  obtain ⟨p, opens, and_holds⟩ := rOpenAnd_spec yields sorts nonempty held
  have open_holds : (rsetOpen { hitsLimit, fOpen := p } : Rsfd _ Key).Holds (AndHolds kc holds)
      (common kc ms) := and_holds
  obtain ⟨keys, reads, keys_eq, sorted⟩ :=
    (controlAnd_yields yields no_segments).rsetReadAll open_holds
  exact ⟨keys, opens.bind reads, keys_eq, sorted⟩

/-- Reading a multi-and of two or more sets that give their keys in nondecreasing order gives, in
nondecreasing order, all keys of all of them whose record occurs in every one, each with its term
and as often as the sets have it, and no others; in any order of the sets the same keys are
given. -/
theorem multi_and_intersects [Inhabited Key] [Inhabited Term] (yields : Yields kc c holds)
    (no_segments : kc.getSegment = none)
    {order : List (HeapItem σ Key Term) → List (HeapItem σ Key Term)}
    (sorts : ∀ items, (order items).Perm items) (hitsLimit : Nat) (children : List (RSet σ))
    {ms : List (Multiset (Key × Term))} (two : 2 ≤ children.length)
    (held : List.Forall₂ (fun child m => holds child.fOpen m) children ms) :
    ∃ keys, Settles (readAllAnd kc c order hitsLimit children) keys ∧
      (keys.Pairwise fun a b => kc.cmp a.1 b.1 ≤ 0) ∧
      (keys : Multiset (Key × Term)) = ms.sum.filter (fun item => InEvery kc ms item.1) ∧
      ∀ children', children'.Perm children →
        ∃ keys', Settles (readAllAnd kc c order hitsLimit children') keys' ∧
          (keys'.Pairwise fun a b => kc.cmp a.1 b.1 ≤ 0) ∧ keys'.Perm keys := by
  have ne_nil {l : List (RSet σ)} (perm : l.Perm children) : l ≠ [] := by
    rintro rfl
    have := perm.length_eq
    simp only [length_nil] at this
    omega
  obtain ⟨keys, settles, keys_eq, sorted⟩ :=
    readAllAnd_spec yields no_segments sorts hitsLimit (ne_nil (.refl _)) held
  refine ⟨keys, settles, sorted, keys_eq, fun children' perm => ?_⟩
  obtain ⟨ms', held', perm_ms⟩ := List.perm_comp_forall₂ perm held
  obtain ⟨keys', settles', keys'_eq, sorted'⟩ :=
    readAllAnd_spec yields no_segments sorts hitsLimit (ne_nil perm) held'
  refine ⟨keys', settles', sorted', Multiset.coe_eq_coe.mp ?_⟩
  rw [keys'_eq, keys_eq, common_perm perm_ms]

/-- Two sets in files: record 2 is in both, record 1 in one of them. -/
theorem multi_and_intersects_two :
    ∃ keys : List (LevelKey 2 × Nat),
      Settles (readAllAnd (itKeyControl 2) tempControl id 0
        [⟨0, [(⟨[1, 3], rfl⟩, 7), (⟨[2, 1], rfl⟩, 7)]⟩, ⟨0, [(⟨[2, 5], rfl⟩, 8)]⟩]) keys ∧
      (keys : Multiset (LevelKey 2 × Nat)) = {(⟨[2, 1], rfl⟩, 7), (⟨[2, 5], rfl⟩, 8)} := by
  obtain ⟨keys, settles, -, keys_eq, -⟩ :=
    multi_and_intersects (tempControl_yields (itKeyControl 2))
    (by rfl) (fun _ => .refl _) 0
    [⟨0, [(⟨[1, 3], rfl⟩, 7), (⟨[2, 1], rfl⟩, 7)]⟩, ⟨0, [(⟨[2, 5], rfl⟩, 8)]⟩]
    (by decide)
    (.cons ⟨rfl, by decide⟩ (.cons ⟨rfl, by decide⟩ .nil))
  exact ⟨keys, settles, keys_eq.trans (by decide)⟩

end Zebra.Rset
