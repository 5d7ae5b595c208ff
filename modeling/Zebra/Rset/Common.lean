import Mathlib.Algebra.BigOperators.Group.List.Basic
import Mathlib.Algebra.Order.Group.Multiset
import Zebra.Rset.KeyControl

/-!
# Records common to all of several collections

What an 'and' is about: the keys of several collections whose record occurs in every one of them.
Leaving keys of some records out of the collections changes nothing about the other records; from
this it follows what may be skipped, and how the keys of one record are set apart from the rest.
-/

namespace Zebra.Rset

open Multiset

variable {Key Term : Type} (kc : KeyControl Key)

/-- Every collection has a key of the record of `key`. -/
def InEvery (ms : List (Multiset (Key × Term))) (key : Key) : Prop :=
  ∀ m ∈ ms, ∃ item ∈ m, kc.Near key item.1

instance (ms : List (Multiset (Key × Term))) (key : Key) : Decidable (InEvery kc ms key) :=
  have _ (m : Multiset (Key × Term)) : Decidable (∃ item ∈ m, kc.Near key item.1) :=
    Multiset.decidableExistsMultiset
  inferInstanceAs (Decidable (∀ m ∈ ms, ∃ item ∈ m, kc.Near key item.1))

/-- All keys of all collections whose record occurs in every collection. -/
def common (ms : List (Multiset (Key × Term))) : Multiset (Key × Term) :=
  ms.sum.filter fun item => InEvery kc ms item.1

/-- Keys with `dropped` are left out of the collections. -/
def Skips (dropped : Key → Prop) (ms ms' : List (Multiset (Key × Term))) : Prop :=
  List.Forall₂ (fun m m' => ∃ skipped : Multiset (Key × Term), m = skipped + m' ∧
    ∀ item ∈ skipped, dropped item.1) ms ms'

/-- A property of records: keys of one record have it together. -/
def OfRecords (dropped : Key → Prop) : Prop :=
  ∀ a b, kc.Near a b → dropped a → dropped b

variable {kc} {ms ms' : List (Multiset (Key × Term))} {dropped : Key → Prop}
variable {item : Key × Term}

theorem mem_sum : item ∈ ms.sum ↔ ∃ m ∈ ms, item ∈ m := by
  induction ms with
  | nil => simp
  | cons m ms ih => simp [ih]

theorem InEvery.congr {a b : Key} (near : kc.Near a b) : InEvery kc ms a ↔ InEvery kc ms b := by
  constructor <;> intro every m mem <;> obtain ⟨item, item_mem, near'⟩ := every m mem
  · exact ⟨item, item_mem, kc.near_trans (kc.near_symm near) near'⟩
  · exact ⟨item, item_mem, kc.near_trans near near'⟩

theorem common_perm (perm : ms.Perm ms') : common kc ms = common kc ms' := by
  simp only [common, perm.sum_eq]
  exact filter_congr fun _ _ => forall_congr' fun _ => imp_congr_left perm.mem_iff

/-- There is nothing common with an empty collection. -/
theorem common_eq_zero (empty : 0 ∈ ms) : common kc ms = 0 := by
  refine filter_eq_nil.mpr fun item _ every => ?_
  obtain ⟨_, mem, _⟩ := every 0 empty
  exact notMem_zero _ mem

theorem Skips.sum (skips : Skips dropped ms ms') :
    ∃ skipped : Multiset (Key × Term), ms.sum = skipped + ms'.sum ∧
      ∀ item ∈ skipped, dropped item.1 := by
  induction skips with
  | nil => exact ⟨0, rfl, by simp⟩
  | cons head _ ih =>
    obtain ⟨skipped, eq, drop⟩ := head
    obtain ⟨skipped', eq', drop'⟩ := ih
    refine ⟨skipped + skipped', ?_, fun item mem => ?_⟩
    · rw [List.sum_cons, List.sum_cons, eq, eq', add_add_add_comm]
    · exact (mem_add.mp mem).elim (drop item) (drop' item)

theorem Skips.refl (dropped : Key → Prop) (ms : List (Multiset (Key × Term))) :
    Skips dropped ms ms :=
  List.forall₂_same.mpr fun m _ => ⟨0, (zero_add m).symm, by simp⟩

/-- Keys that are left in all collections were in all of them. -/
theorem Skips.inEvery_of (skips : Skips dropped ms ms') {key : Key} (every : InEvery kc ms' key) :
    InEvery kc ms key := by
  induction skips with
  | nil => exact every
  | cons head _ ih =>
    obtain ⟨every_head, every_tail⟩ := List.forall_mem_cons.mp every
    obtain ⟨skipped, rfl, _⟩ := head
    obtain ⟨item, item_mem, near⟩ := every_head
    exact List.forall_mem_cons.mpr
      ⟨⟨item, mem_add.mpr (.inr item_mem), near⟩, ih every_tail⟩

/-- A record that is not left out stays in every collection. -/
theorem Skips.inEvery (skips : Skips dropped ms ms') (records : OfRecords kc dropped) {key : Key}
    (kept : ¬dropped key) (every : InEvery kc ms key) : InEvery kc ms' key := by
  induction skips with
  | nil => exact every
  | cons head _ ih =>
    obtain ⟨every_head, every_tail⟩ := List.forall_mem_cons.mp every
    obtain ⟨skipped, rfl, drop⟩ := head
    obtain ⟨item, item_mem, near⟩ := every_head
    refine List.forall_mem_cons.mpr ⟨⟨item, ?_, near⟩, ih every_tail⟩
    rcases mem_add.mp item_mem with item_mem | item_mem
    · exact (kept (records _ _ (kc.near_symm near) (drop item item_mem))).elim
    · exact item_mem

/-- Leaving records out takes nothing from what is common of the others. -/
theorem Skips.common_filter [DecidablePred dropped] (skips : Skips dropped ms ms')
    (records : OfRecords kc dropped) :
    (common kc ms).filter (fun item => ¬dropped item.1) =
      (common kc ms').filter (fun item => ¬dropped item.1) := by
  obtain ⟨skipped, sum_eq, drop⟩ := skips.sum
  have none_skipped : skipped.filter (fun item => ¬dropped item.1 ∧ InEvery kc ms item.1) = 0 :=
    filter_eq_nil.mpr fun item mem kept => kept.1 (drop item mem)
  rw [common, common, filter_filter, filter_filter, sum_eq, filter_add,
    none_skipped, zero_add]
  refine filter_congr fun item _ => and_congr_right fun kept => ?_
  exact ⟨skips.inEvery records kept, skips.inEvery_of⟩

theorem Skips.common_le (skips : Skips dropped ms ms') : common kc ms' ≤ common kc ms := by
  obtain ⟨skipped, sum_eq, -⟩ := skips.sum
  calc
    common kc ms' ≤ ms'.sum.filter (fun item => InEvery kc ms item.1) :=
      monotone_filter_right _ fun _ every => skips.inEvery_of every
    _ ≤ common kc ms := by
      rw [common, sum_eq]
      exact filter_le_filter _ (le_add_left _ _)

/-- What is left out of the collections is missing from what is common. -/
theorem exists_skipped {m m' : Multiset (Key × Term)} [DecidablePred dropped] (le : m' ≤ m)
    (kept : m.filter (fun item => ¬dropped item.1) = m'.filter (fun item => ¬dropped item.1)) :
    ∃ skipped : Multiset (Key × Term), m = skipped + m' ∧ ∀ item ∈ skipped, dropped item.1 := by
  obtain ⟨skipped, eq⟩ := Multiset.le_iff_exists_add.mp
    (filter_le_filter (fun item => dropped item.1) le)
  refine ⟨skipped, ?_, fun item mem => ?_⟩
  · rw [← filter_add_not (fun item => dropped item.1) m, eq, kept, add_right_comm,
      filter_add_not, add_comm]
  · have mem : item ∈ m.filter fun item => dropped item.1 := eq ▸ mem_add.mpr (.inr mem)
    exact (mem_filter.mp mem).2

/-- Keys whose records do not occur in another collection can be left out. -/
theorem common_skip {skipped left other : Multiset (Key × Term)}
    (mem : other ∈ ms) (far : ∀ item ∈ skipped, ∀ key ∈ other, ¬kc.Near item.1 key.1) :
    common kc ((skipped + left) :: ms) = common kc (left :: ms) := by
  classical
  let absent (key : Key) : Prop := ∀ item ∈ other, ¬kc.Near key item.1
  have records : OfRecords kc absent := fun a b near absent item item_mem near' =>
    absent item item_mem (kc.near_trans near near')
  have skips : Skips absent ((skipped + left) :: ms) (left :: ms) :=
    .cons ⟨skipped, rfl, far⟩ (Skips.refl absent ms)
  -- what is common occurs in `other`
  have present (head : Multiset (Key × Term)) :
      (common kc (head :: ms)).filter (fun item => ¬absent item.1) = common kc (head :: ms) := by
    refine filter_eq_self.mpr fun item item_mem absent => ?_
    obtain ⟨key, key_mem, near⟩ :=
      (mem_filter.mp item_mem).2 other (List.mem_cons_of_mem _ mem)
    exact absent key key_mem near
  rw [← present, skips.common_filter records, present]

/-- The keys of the record of `r` left in the collections, and what the collections have in common
beyond: what is left to give while that record is given. -/
def tails (kc : KeyControl Key) (r : Key) (ms : List (Multiset (Key × Term))) :
    Multiset (Key × Term) :=
  ms.sum.filter (fun item => kc.Near r item.1) +
    common kc (ms.map (filter fun item => ¬kc.Near r item.1))

theorem sum_map_filter (p : Key × Term → Prop) [DecidablePred p] :
    (ms.map (filter p)).sum = ms.sum.filter p := by
  induction ms with
  | nil => rfl
  | cons m ms ih => rw [List.map_cons, List.sum_cons, ih, List.sum_cons, filter_add]

theorem skips_record (r : Key) :
    Skips (kc.Near r) ms (ms.map (filter fun item => ¬kc.Near r item.1)) := by
  refine List.forall₂_map_right_iff.mpr (List.forall₂_same.mpr fun m _ => ?_)
  exact ⟨m.filter fun item => kc.Near r item.1, (filter_add_not _ m).symm,
    fun item mem => (mem_filter.mp mem).2⟩

theorem ofRecords_near (r : Key) : OfRecords kc (kc.Near r) :=
  fun _ _ near near_r => kc.near_trans near_r near

theorem common_far (r : Key) :
    (common kc ms).filter (fun item => ¬kc.Near r item.1) =
      common kc (ms.map (filter fun item => ¬kc.Near r item.1)) := by
  rw [(skips_record r).common_filter (ofRecords_near r)]
  refine filter_eq_self.mpr fun item mem => ?_
  have mem := (mem_filter.mp mem).1
  rw [sum_map_filter] at mem
  exact (mem_filter.mp mem).2

theorem common_le_tails (r : Key) : common kc ms ≤ tails kc r ms := by
  rw [← filter_add_not (fun item => kc.Near r item.1) (common kc ms), common_far]
  exact add_le_add_left (filter_le_filter _ (filter_le _ _)) _

variable {r : Key}

/-- A record that occurs in every collection is common with all its keys. -/
theorem common_eq_tails (every : InEvery kc ms r) : common kc ms = tails kc r ms := by
  rw [← filter_add_not (fun item => kc.Near r item.1) (common kc ms), common_far, tails]
  congr 1
  rw [common, filter_filter]
  refine filter_congr fun item _ => ⟨And.left, fun near => ⟨near, ?_⟩⟩
  exact (InEvery.congr near).mp every

/-- When no key of the record is left, what is common is left. -/
theorem tails_eq_common (far : ∀ item ∈ ms.sum, ¬kc.Near r item.1) :
    tails kc r ms = common kc ms := by
  have same : ms.map (filter fun item => ¬kc.Near r item.1) = ms := by
    refine (List.map_congr_left fun m mem => ?_).trans (List.map_id ms)
    exact filter_eq_self.mpr fun item item_mem => far item (mem_sum.mpr ⟨m, mem, item_mem⟩)
  rw [tails, same, filter_eq_nil.mpr far, zero_add]

theorem tails_perm (perm : ms.Perm ms') : tails kc r ms = tails kc r ms' := by
  rw [tails, tails, perm.sum_eq, common_perm (perm.map _)]

/-- Giving a key of the record takes just that key away. -/
theorem tails_cons {rest : Multiset (Key × Term)} (near : kc.Near r item.1) :
    tails kc r ((item ::ₘ rest) :: ms) = item ::ₘ tails kc r (rest :: ms) := by
  simp [tails, near, filter_cons_of_pos, filter_cons_of_neg]

theorem mem_sum_of_mem_tails (mem : item ∈ tails kc r ms) : item ∈ ms.sum := by
  rcases mem_add.mp mem with mem | mem
  · exact (mem_filter.mp mem).1
  · have mem := (mem_filter.mp mem).1
    rw [sum_map_filter] at mem
    exact (mem_filter.mp mem).1

/-- Past a record that is left out, its rest is of no account. -/
theorem tails_filter [DecidablePred dropped] (records : OfRecords kc dropped) (gone : dropped r) :
    (tails kc r ms).filter (fun item => ¬dropped item.1) =
      (common kc ms).filter (fun item => ¬dropped item.1) := by
  have skips : Skips dropped ms (ms.map (filter fun item => ¬kc.Near r item.1)) :=
    (skips_record r).imp fun _ _ ⟨skipped, eq, near⟩ =>
      ⟨skipped, eq, fun item mem => records _ _ (near item mem) gone⟩
  rw [skips.common_filter records, tails, filter_add, filter_filter,
    filter_eq_nil.mpr, zero_add]
  exact fun item _ kept => kept.1 (records _ _ kept.2 gone)

end Zebra.Rset
