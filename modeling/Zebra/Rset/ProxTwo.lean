import Zebra.Rset.Prox

/-!
# Proximity of two operands

`rsprox.c`.  Without exclusion, a record of two children is given when its positions are found.  In
order and with one of the first three relations, the reader goes forward in one child at a time and
gives up a left key when a right key is after it and not in the relation.  Otherwise the left
positions are kept, as many as there is room for, and what is given is the first right key of the
record, whichever right key it is that was found.
-/

namespace Zebra.Rset.Prox

open List

/-- The difference of two positions, absolute without the ordered flag. -/
def difference (info : ProxInfo) (p q : Key) : Int :=
  let diff := q.seq - p.seq
  if !info.ordered && diff < 0 then -diff else diff

/-- A left and a right key of one record, with their difference in the relation. -/
def Pair (info : ProxInfo) (p q : Key) : Prop :=
  p.record = q.record ∧ inRange info (difference info p q) = true

def HasPair (info : ProxInfo) (left right : List Key) (record : Int) : Prop :=
  ∃ p ∈ left, ∃ q ∈ right, q.record = record ∧ Pair info p q

/-- What the set should give: keys of the records with a pair, each the right key of a pair. -/
def Qualifies (info : ProxInfo) (left right keys : List Key) : Prop :=
  (∀ record, (∃ k ∈ keys, k.record = record) ↔ HasPair info left right record) ∧
    ∀ k ∈ keys, k ∈ right ∧ ∃ p ∈ left, Pair info p k

/-- Reading comes to an end, with what the set should give. -/
def Finds (info : ProxInfo) (left right : List Key) : Prop :=
  ∀ fuel, left.length + right.length < fuel →
    ∃ keys, readAll info fuel [left, right] = some keys ∧ Qualifies info left right keys

def keysOf (record : Int) (child : List Key) : List Key := child.filter fun k => k.record = record

/-- A left key and a right key after it that are near, with no right key of the record between
them. -/
def Clear (info : ProxInfo) (left right : List Key) (record : Int) : Prop :=
  ∃ p ∈ left, ∃ q ∈ right, q.record = record ∧ near info p q = true ∧
    ∀ between ∈ right, between.record = record → ¬ (p.seq < between.seq ∧ between.seq < q.seq)

/-- A pair with one of the left keys that there is room for. -/
def Kept (info : ProxInfo) (left right : List Key) (record : Int) : Prop :=
  ∃ p ∈ (keysOf record left).take 500, ∃ q ∈ keysOf record right, Pair info p q

/-- When a record with a pair is given, and with a key of a pair. -/
def Found (info : ProxInfo) (left right : List Key) (record : Int) : Prop :=
  if info.ordered ∧ info.relation ≤ 3 then Clear info left right record
  else Kept info left right record ∧
    ∃ first ∈ (keysOf record right).head?, ∃ p ∈ left, Pair info p first

variable {info : ProxInfo}

theorem cmp_le_iff {p q : Key} : cmp p q ≤ -scope ↔ p.record < q.record := by
  rw [cmp, scope]
  split
  · split <;> omega
  · split
    · split <;> omega
    · omega

theorem sameRecord_iff {p q : Key} : sameRecord p q = true ↔ p.record = q.record := by
  have below := @cmp_le_iff p q
  have above := @le_cmp_iff p q
  rw [sameRecord, decide_eq_true_iff]
  omega

variable {record : Int} {child : List Key}

theorem mem_keysOf {k : Key} : k ∈ keysOf record child ↔ k ∈ child ∧ k.record = record := by
  simp [keysOf]

theorem keysOf_append (dropped child : List Key)
    (other : ∀ k ∈ dropped, k.record ≠ record) :
      keysOf record (dropped ++ child) = keysOf record child := by
  have none : dropped.filter (fun k => k.record = record) = [] :=
    filter_eq_nil_iff.mpr fun k member => by simpa using other k member
  rw [keysOf, filter_append, none, nil_append]
  rfl

theorem keysOf_eq_nil (other : ∀ k ∈ child, k.record ≠ record) : keysOf record child = [] :=
  filter_eq_nil_iff.mpr fun k member => by simpa using other k member

theorem record_le_of_mem {first k : Key} {rest : List Key}
    (sorted : (first :: rest).Pairwise Before)
    (member : k ∈ first :: rest) : first.record ≤ k.record := by
  obtain rfl | member := mem_cons.mp member
  · exact le_rfl
  · exact (rel_of_pairwise_cons sorted member).record_le

theorem takeWhile_eq_keysOf (sorted : child.Pairwise Before)
    (least : ∀ k ∈ child, record ≤ k.record) :
    child.takeWhile (fun k => k.record = record) = keysOf record child := by
  induction child with
  | nil => rfl
  | cons first rest ih =>
    by_cases is : first.record = record
    · have rest_eq := ih sorted.of_cons fun k member => least k (.tail _ member)
      rw [keysOf] at rest_eq
      simp only [takeWhile_cons, keysOf, filter_cons, is, decide_true, if_true, rest_eq]
    · have other : ∀ k ∈ first :: rest, k.record ≠ record := by
        intro k member
        have := record_le_of_mem sorted member
        have := least first mem_cons_self
        omega
      rw [keysOf_eq_nil other, takeWhile_cons_of_neg (by simpa using is)]

theorem keysOf_dropWhile (sorted : child.Pairwise Before) (least : ∀ k ∈ child, record ≤ k.record) :
    keysOf record (child.dropWhile fun k => k.record = record) = [] := by
  have whole : keysOf record (child.takeWhile fun k => k.record = record) ++
      keysOf record (child.dropWhile fun k => k.record = record) = keysOf record child := by
    rw [keysOf, keysOf, ← filter_append, takeWhile_append_dropWhile]
    rfl
  have front : keysOf record (child.takeWhile fun k => k.record = record) =
      keysOf record child := by
    rw [takeWhile_eq_keysOf sorted least]
    exact filter_filter.trans (filter_congr fun k _ => Bool.and_self _)
  rw [front] at whole
  exact append_right_eq_self.mp whole

/-- What the reads of two children give: the records and the keys that are allowed. -/
structure Spec where
  records : List Key → List Key → Int → Prop
  keys : List Key → List Key → Key → Prop

/-- Children that have gone forward without a loss. -/
structure Spec.Onward (s : Spec) (left right left' right' : List Key) : Prop where
  sorted : Sorted [left', right']
  fewer : left'.length + right'.length < left.length + right.length
  records : ∀ r, s.records left right r ↔ s.records left' right' r
  keys : ∀ k, s.keys left' right' k → s.keys left right k

inductive Spec.Read (s : Spec) (left right : List Key) : Option Key × List (List Key) → Prop where
  | eof {children : List (List Key)} (empty : ∀ r, ¬ s.records left right r) :
      Spec.Read s left right (none, children)
  | key {buf : Key} {left' right' : List Key} (sorted : Sorted [left', right'])
      (fewer : left'.length + right'.length < left.length + right.length)
      (given : s.keys left right buf)
      (records : ∀ r, s.records left right r ↔ buf.record = r ∨ s.records left' right' r)
      (keys : ∀ k, s.keys left' right' k → s.keys left right k) :
      Spec.Read s left right (some buf, [left', right'])

variable {s : Spec} {left right left' right' : List Key}

theorem Spec.Onward.read {r : Option Key × List (List Key)}
    (onward : s.Onward left right left' right')
    (read : s.Read left' right' r) : s.Read left right r := by
  cases read with
  | eof empty => exact .eof fun r has => empty r ((onward.records r).mp has)
  | key sorted fewer given records keys =>
    apply Spec.Read.key sorted (fewer.trans onward.fewer) (onward.keys _ given)
    · exact fun r => (onward.records r).trans (records r)
    · exact fun k has => onward.keys k (keys k has)

theorem exists_readAll {fuel : Nat} (enough : left.length + right.length < fuel)
    (sorted : Sorted [left, right])
    (reads : ∀ left right fuel, left.length + right.length < fuel → Sorted [left, right] →
      ∃ r, rRead info fuel [left, right] = some r ∧ s.Read left right r) :
    ∃ keys, readAll info fuel [left, right] = some keys ∧
      (∀ r, (∃ k ∈ keys, k.record = r) ↔ s.records left right r) ∧
      ∀ k ∈ keys, s.keys left right k := by
  induction fuel generalizing left right with
  | zero => exact absurd enough (Nat.not_lt_zero _)
  | succ fuel ih =>
    obtain ⟨r, run, read⟩ := reads left right (fuel + 1) enough sorted
    rw [readAll, run]
    cases read with
    | eof empty =>
      refine ⟨[], rfl, fun r => ?_, fun k member => absurd member not_mem_nil⟩
      exact iff_of_false (by simp) (empty r)
    | @key buf left' right' sorted' fewer given records keys =>
      obtain ⟨rest, run', records', keys'⟩ := ih (by omega) sorted'
      refine ⟨buf :: rest, by simp only [run', Option.map_some], fun r => ?_, ?_⟩
      · rw [records r, ← records' r]
        simp
      · exact forall_mem_cons.mpr ⟨given, fun k member => keys k (keys' k member)⟩

/-- Records with a clear pair, and right keys that are near. -/
def clearSpec (info : ProxInfo) : Spec where
  records := Clear info
  keys left right k := k ∈ right ∧ ∃ p ∈ left, near info p k = true

inductive Clears (info : ProxInfo) (left right : List Key) : Round → Prop where
  | eof (empty : ∀ r, ¬ Clear info left right r) : Clears info left right .eof
  | forward {left' right' : List Key} (onward : (clearSpec info).Onward left right left' right') :
      Clears info left right (.forward [left', right'])
  | hit {buf : Key} {left' right' : List Key}
      (read : (clearSpec info).Read left right (some buf, [left', right'])) :
      Clears info left right (.hit buf [left', right'])

theorem sorted_pair : Sorted [left, right] ↔ left.Pairwise Before ∧ right.Pairwise Before := by
  simp [Sorted]

/-- Left keys that are near to no right key without one between them do not count. -/
theorem onward_left {dropped : List Key} (sorted : Sorted [dropped ++ left, right])
    (some : dropped ≠ [])
    (unclear : ∀ p ∈ dropped, ∀ q ∈ right, near info p q = true →
      ∃ between ∈ right, between.record = q.record ∧ p.seq < between.seq ∧ between.seq < q.seq) :
    (clearSpec info).Onward (dropped ++ left) right left right := by
  have positive := length_pos_of_ne_nil some
  refine ⟨?_, ?_, fun r => ⟨?_, ?_⟩, ?_⟩
  · rw [sorted_pair] at sorted ⊢
    exact ⟨sorted.1.sublist (sublist_append_right _ _), sorted.2⟩
  · rw [length_append]
    omega
  · rintro ⟨p, member, q, at_, is, close, clear⟩
    obtain member | member := mem_append.mp member
    · obtain ⟨between, within, same, order⟩ := unclear p member q at_ close
      exact absurd order (clear between within (same.trans is))
    · exact ⟨p, member, q, at_, is, close, clear⟩
  · rintro ⟨p, member, rest⟩
    exact ⟨p, mem_append_right _ member, rest⟩
  · rintro k ⟨at_, p, member, close⟩
    exact ⟨at_, p, mem_append_right _ member, close⟩

/-- Right keys that come after no left key in its record do not count. -/
theorem onward_right {dropped : List Key} (sorted : Sorted [left, dropped ++ right])
    (some : dropped ≠ [])
    (before : ∀ p ∈ left, ∀ q ∈ dropped, p.record = q.record → q.seq ≤ p.seq) :
    (clearSpec info).Onward left (dropped ++ right) left right := by
  have positive := length_pos_of_ne_nil some
  refine ⟨?_, ?_, fun r => ⟨?_, ?_⟩, ?_⟩
  · rw [sorted_pair] at sorted ⊢
    exact ⟨sorted.1, sorted.2.sublist (sublist_append_right _ _)⟩
  · rw [length_append]
    omega
  · rintro ⟨p, member, q, at_, is, close, clear⟩
    obtain at_ | at_ := mem_append.mp at_
    · obtain ⟨same, order, -⟩ := near_iff.mp close
      exact absurd order (before p member q at_ same).not_gt
    · exact ⟨p, member, q, at_, is, close, fun between within =>
        clear between (mem_append_right _ within)⟩
  · rintro ⟨p, member, q, at_, is, close, clear⟩
    refine ⟨p, member, q, mem_append_right _ at_, is, close, fun between within same => ?_⟩
    obtain within | within := mem_append.mp within
    · have equal := (near_iff.mp close).1
      have := before p member between within (by omega)
      omega
    · exact clear between within same
  · rintro k ⟨at_, p, member, close⟩
    exact ⟨mem_append_right _ at_, p, member, close⟩

/-- The right key that is given is near to the left one. -/
theorem read_hit {previous buf : Key} {earlier more : List Key}
    (sorted : Sorted [previous :: earlier, buf :: more]) (close : near info previous buf = true) :
    (clearSpec info).Read (previous :: earlier) (buf :: more)
      (some buf, [previous :: earlier, more]) := by
  have sorted' := sorted_pair.mp sorted
  have here : Clear info (previous :: earlier) (buf :: more) buf.record := by
    refine ⟨previous, .head _, buf, .head _, rfl, close, ?_⟩
    rintro between within same ⟨-, order⟩
    obtain rfl | within := mem_cons.mp within
    · exact lt_irrefl _ order
    · obtain less | ⟨-, le⟩ := rel_of_pairwise_cons sorted'.2 within
      · omega
      · omega
  refine .key (sorted_pair.mpr ⟨sorted'.1, sorted'.2.of_cons⟩) (by simp)
    ⟨.head _, previous, .head _, close⟩ (fun r => ⟨?_, ?_⟩) ?_
  · rintro ⟨p, member, q, at_, is, near, clear⟩
    obtain rfl | at_ := mem_cons.mp at_
    · exact .inl is
    · exact .inr ⟨p, member, q, at_, is, near, fun between within =>
        clear between (.tail _ within)⟩
  · intro given
    by_cases is : buf.record = r
    · exact is ▸ here
    · obtain ⟨p, member, q, at_, same, near, clear⟩ := given.resolve_left is
      refine ⟨p, member, q, .tail _ at_, same, near, ?_⟩
      exact forall_mem_cons.mpr ⟨fun equal => absurd equal is, clear⟩
  · rintro k ⟨at_, rest⟩
    exact ⟨.tail _ at_, rest⟩

theorem round_clears (left right : List Key) (sorted : Sorted [left, right]) :
    Clears info left right (round info [left, right]) := by
  cases left with
  | nil =>
    apply Clears.eof
    rintro r ⟨p, member, -⟩
    exact not_mem_nil member
  | cons previous earlier =>
    cases right with
    | nil =>
      apply Clears.eof
      rintro r ⟨p, -, q, at_, -⟩
      exact not_mem_nil at_
    | cons buf more =>
      have sorted' := sorted_pair.mp sorted
      rw [round]
      split
      next behind =>
        have behind := le_cmp_iff.mp behind
        obtain ⟨dropped, whole, records⟩ := exists_rsetForward previous earlier buf
        have lower : ∀ p ∈ previous :: dropped, p.record < buf.record :=
          forall_mem_cons.mpr ⟨behind, records⟩
        generalize rsetForward (previous :: earlier) buf = kept at whole
        rw [whole] at sorted ⊢
        apply Clears.forward
        apply onward_left sorted (cons_ne_nil _ _)
        intro p member q at_ close
        have := lower p member
        have := record_le_of_mem sorted'.2 at_
        have := (near_iff.mp close).1
        omega
      next level =>
        have level := mt le_cmp_iff.mpr level
        split
        next order =>
          have order := cmp_pos_iff.mp order
          split
          next related =>
            exact .hit (read_hit sorted (near_iff.mpr ⟨by omega, by omega, related⟩))
          next related =>
            apply Clears.forward
            apply @onward_left _ _ _ [previous] sorted (cons_ne_nil _ _)
            intro p member q at_ close
            obtain rfl := mem_singleton.mp member
            refine ⟨buf, .head _, ?_⟩
            obtain ⟨same, -, within⟩ := near_iff.mp close
            have other : q.seq ≠ buf.seq := fun equal => related (equal ▸ within)
            obtain rfl | at_ := mem_cons.mp at_
            · exact absurd rfl other
            · obtain less | ⟨_, le⟩ := rel_of_pairwise_cons sorted'.2 at_
              · omega
              · exact ⟨by omega, by omega, by omega⟩
        next order =>
          have order := mt cmp_pos_iff.mpr order
          obtain ⟨dropped, whole, records⟩ := exists_rsetForward buf more previous
          have lower : ∀ q ∈ dropped, q.record < previous.record := records
          generalize rsetForward (buf :: more) previous = kept at whole
          rw [whole] at sorted ⊢
          apply Clears.forward
          apply onward_right sorted (cons_ne_nil _ _)
          intro p member q at_ same
          have first := record_le_of_mem sorted'.1 member
          obtain rfl | at_ := mem_cons.mp at_
          · obtain rfl | member := mem_cons.mp member
            · omega
            · obtain less | ⟨_, le⟩ := rel_of_pairwise_cons sorted'.1 member
              · omega
              · omega
          · have := lower q at_
            omega

theorem exists_allLoop_two {fuel : Nat} (enough : left.length + right.length < fuel)
    (sorted : Sorted [left, right]) :
    ∃ r, allLoop info fuel [left, right] = some r ∧ (clearSpec info).Read left right r := by
  induction fuel generalizing left right with
  | zero => exact absurd enough (Nat.not_lt_zero _)
  | succ fuel ih =>
    have clears := @round_clears info left right sorted
    rw [allLoop]
    generalize round info [left, right] = r at clears
    cases clears with
    | eof empty => exact ⟨_, rfl, .eof empty⟩
    | hit read => exact ⟨_, rfl, read⟩
    | forward onward =>
      have := onward.fewer
      obtain ⟨r, run, read⟩ := ih (by omega) onward.sorted
      exact ⟨r, run, onward.read read⟩

def keptSpec (info : ProxInfo) : Spec where
  records left right r := Kept info left right r
  keys left right k := (keysOf k.record right).head? = some k ∧ Kept info left right k.record

theorem not_kept_of_left {r : Int} (none : keysOf r left = []) : ¬ Kept info left right r := by
  rintro ⟨p, member, -⟩
  rw [none] at member
  exact not_mem_nil member

theorem not_kept_of_right {r : Int} (none : keysOf r right = []) : ¬ Kept info left right r := by
  rintro ⟨p, -, q, at_, -⟩
  rw [none] at at_
  exact not_mem_nil at_

theorem kept_congr {r : Int} (same_left : keysOf r left = keysOf r left')
    (same_right : keysOf r right = keysOf r right') :
    Kept info left right r ↔ Kept info left' right' r := by
  rw [Kept, same_left, same_right]
  rfl

/-- What is said of the records of two pairs of children. -/
def Same (info : ProxInfo) (left right left' right' : List Key) (r : Int) : Prop :=
  keysOf r left = keysOf r left' ∧ keysOf r right = keysOf r right' ∨
    ¬ Kept info left right r ∧ ¬ Kept info left' right' r

theorem Same.kept {r : Int} (same : Same info left right left' right' r) :
    Kept info left right r ↔ Kept info left' right' r := by
  obtain ⟨same_left, same_right⟩ | ⟨without, without'⟩ := same
  · exact kept_congr same_left same_right
  · exact iff_of_false without without'

theorem Same.keys {k : Key} (same : Same info left right left' right' k.record)
    (given : (keptSpec info).keys left' right' k) : (keptSpec info).keys left right k := by
  obtain ⟨first, kept⟩ := given
  obtain ⟨same_left, same_right⟩ | ⟨-, without⟩ := same
  · exact ⟨same_right ▸ first, (kept_congr same_left same_right).mpr kept⟩
  · exact absurd kept without

theorem onward_of_same (sorted : Sorted [left', right'])
    (fewer : left'.length + right'.length < left.length + right.length)
    (same : ∀ r, Same info left right left' right' r) :
    (keptSpec info).Onward left right left' right' :=
  ⟨sorted, fewer, fun r => (same r).kept, fun _ given => (same _).keys given⟩

/-- Left keys of a record before all right keys do not count. -/
theorem onward_behind {previous buf : Key} {earlier more : List Key}
    (sorted : Sorted [previous :: earlier, buf :: more]) (behind : previous.record < buf.record) :
    (keptSpec info).Onward (previous :: earlier) (buf :: more)
      (rsetForward (previous :: earlier) buf) (buf :: more) := by
  obtain ⟨dropped, whole, records⟩ := exists_rsetForward previous earlier buf
  have lower : ∀ p ∈ previous :: dropped, p.record < buf.record :=
    forall_mem_cons.mpr ⟨behind, records⟩
  generalize rsetForward (previous :: earlier) buf = kept at whole
  rw [whole] at sorted ⊢
  have sorted' := sorted_pair.mp sorted
  refine onward_of_same (sorted_pair.mpr ⟨sorted'.1.sublist (sublist_append_right _ _),
    sorted'.2⟩) (by simp only [length_append, length_cons]; omega) fun r => ?_
  by_cases early : r < buf.record
  · have none : keysOf r (buf :: more) = [] := by
      apply keysOf_eq_nil
      intro k member
      have := record_le_of_mem sorted'.2 member
      omega
    exact .inr ⟨not_kept_of_right none, not_kept_of_right none⟩
  · refine .inl ⟨keysOf_append _ _ fun p member => ?_, rfl⟩
    have := lower p member
    omega

/-- Right keys of a record before all left keys do not count. -/
theorem onward_ahead {previous buf : Key} {earlier more : List Key}
    (sorted : Sorted [previous :: earlier, buf :: more]) (ahead : buf.record < previous.record) :
    (keptSpec info).Onward (previous :: earlier) (buf :: more) (previous :: earlier)
      (rsetForward (buf :: more) previous) := by
  obtain ⟨dropped, whole, records⟩ := exists_rsetForward buf more previous
  have lower : ∀ q ∈ buf :: dropped, q.record < previous.record :=
    forall_mem_cons.mpr ⟨ahead, records⟩
  generalize rsetForward (buf :: more) previous = kept at whole
  rw [whole] at sorted ⊢
  have sorted' := sorted_pair.mp sorted
  refine onward_of_same (sorted_pair.mpr ⟨sorted'.1, sorted'.2.sublist
    (sublist_append_right _ _)⟩) (by simp only [length_append, length_cons]; omega) fun r => ?_
  by_cases early : r < previous.record
  · have none : keysOf r (previous :: earlier) = [] := by
      apply keysOf_eq_nil
      intro k member
      have := record_le_of_mem sorted'.1 member
      omega
    exact .inr ⟨not_kept_of_left none, not_kept_of_left none⟩
  · refine .inl ⟨rfl, keysOf_append _ _ fun q member => ?_⟩
    have := lower q member
    omega

theorem excl_iff (exclusion : info.exclusion = false) {keys : List Key} {buf : Key}
    (same : ∀ p ∈ keys, p.record = buf.record) :
    excl info (keys.map (·.seq)) buf = true ↔ ∃ p ∈ keys, Pair info p buf := by
  rw [excl, any_map, any_eq_true]
  refine exists_congr fun p => and_congr_right fun member => ?_
  rw [Pair, difference, exclusion]
  simp [same p member]

/-- The right keys of a record are read up to a hit, or all of them. -/
theorem exists_rightLoop {seqno : List Int} {buf : Key} {keys : List Key}
    (first : ∀ k ∈ keys.head?, k.record = buf.record) :
    ∃ dropped more, keys = dropped ++ more ∧ (∀ k ∈ dropped, k.record = buf.record) ∧
      ((∃ k ∈ dropped, excl info seqno k = true) ∧
        rightLoop info seqno buf keys = (true, more) ∨
      (∀ k ∈ dropped, excl info seqno k = false) ∧ (∀ k ∈ more.head?, k.record ≠ buf.record) ∧
        rightLoop info seqno buf keys = (false, more)) := by
  induction keys with
  | nil => exact ⟨[], [], rfl, by simp, .inr ⟨by simp, by simp, rfl⟩⟩
  | cons key more ih =>
    have here := first key rfl
    rw [rightLoop]
    split
    next hit =>
      refine ⟨[key], more, rfl, by simpa using here, .inl ⟨⟨key, by simp, hit⟩, rfl⟩⟩
    next no_hit =>
      have no_hit := Bool.eq_false_iff.mpr no_hit
      split
      next same =>
        have same : ∀ k ∈ more.head?, k.record = buf.record := by
          intro k is
          rw [Option.mem_def.mp is] at same
          exact (sameRecord_iff.mp same).symm
        obtain ⟨dropped, rest, split, records, result⟩ := ih same
        refine ⟨key :: dropped, rest, congrArg (key :: ·) split,
          forall_mem_cons.mpr ⟨here, records⟩, ?_⟩
        obtain ⟨⟨k, member, hit⟩, run⟩ | ⟨none, other, run⟩ := result
        · exact .inl ⟨⟨k, .tail _ member, hit⟩, run⟩
        · exact .inr ⟨forall_mem_cons.mpr ⟨no_hit, none⟩, other, run⟩
      next other =>
        refine ⟨[key], more, rfl, by simpa using here, .inr ⟨by simpa using no_hit, ?_, rfl⟩⟩
        intro k is same
        rw [Option.mem_def.mp is] at other
        exact other (sameRecord_iff.mpr same.symm)

theorem keysOf_eq_nil_of_head (sorted : child.Pairwise Before)
    (least : ∀ k ∈ child, record ≤ k.record) (first : ∀ k ∈ child.head?, k.record ≠ record) :
    keysOf record child = [] := by
  cases child with
  | nil => rfl
  | cons head rest =>
    apply keysOf_eq_nil
    intro k member
    have := record_le_of_mem sorted member
    have := least head mem_cons_self
    have := first head rfl
    omega

/-- The left keys of a record: those that are read, and what comes after them. -/
theorem exists_left (previous : Key) (earlier : List Key) (buf : Key)
    (sorted : (previous :: earlier).Pairwise Before) (same : previous.record = buf.record) :
    previous :: earlier.takeWhile (sameRecord · buf) = keysOf buf.record (previous :: earlier) ∧
      keysOf buf.record (earlier.dropWhile (sameRecord · buf)) = [] ∧
      ∀ r, r ≠ buf.record → keysOf r (previous :: earlier) =
        keysOf r (earlier.dropWhile (sameRecord · buf)) := by
  have is : (fun k => sameRecord k buf) = fun k => decide (k.record = buf.record) := by
    funext k
    rw [Bool.eq_iff_iff, sameRecord_iff, decide_eq_true_iff]
  have least : ∀ k ∈ previous :: earlier, buf.record ≤ k.record := fun k member =>
    same ▸ record_le_of_mem sorted member
  have front := takeWhile_eq_keysOf sorted least
  have back := keysOf_dropWhile sorted least
  have here : decide (previous.record = buf.record) = true := decide_eq_true same
  simp only [takeWhile_cons, dropWhile_cons, here, if_true] at front back
  rw [is]
  refine ⟨front, back, fun r other => ?_⟩
  have whole : previous :: earlier =
      (previous :: earlier.takeWhile fun k => k.record = buf.record) ++
      earlier.dropWhile fun k => k.record = buf.record :=
    congrArg (previous :: ·) takeWhile_append_dropWhile.symm
  conv_lhs => rw [whole, front]
  apply keysOf_append
  intro k member
  rw [(mem_keysOf.mp member).2]
  exact other.symm

/-- A record of both children: it is given, or it has no pair that is kept. -/
theorem exists_record (exclusion : info.exclusion = false) {previous buf : Key}
    {earlier more : List Key} (sorted : Sorted [previous :: earlier, buf :: more])
    (same : previous.record = buf.record) :
    ∃ hit more', rightLoop info (((previous :: earlier.takeWhile (sameRecord · buf)).map
        (·.seq)).take 500) buf (buf :: more) = (hit, more') ∧
      (hit = true → (keptSpec info).Read (previous :: earlier) (buf :: more)
        (some buf, [earlier.dropWhile (sameRecord · buf), more'])) ∧
      (hit = false → (keptSpec info).Onward (previous :: earlier) (buf :: more)
        (earlier.dropWhile (sameRecord · buf)) more') := by
  have sorted' := sorted_pair.mp sorted
  obtain ⟨front, back, others⟩ := exists_left previous earlier buf sorted'.1 same
  have later : earlier.dropWhile (sameRecord · buf) <:+ earlier := dropWhile_suffix _
  have fewer := later.length_le
  have left_sorted := sorted'.1.of_cons.sublist later.sublist
  rw [front, ← map_take]
  generalize earlier.dropWhile (sameRecord · buf) = earlier' at *
  have of_record : ∀ p ∈ (keysOf buf.record (previous :: earlier)).take 500,
      p.record = buf.record :=
    fun p member => (mem_keysOf.mp (mem_of_mem_take member)).2
  obtain ⟨dropped, more', whole, records, result⟩ := @exists_rightLoop info
    (((keysOf buf.record (previous :: earlier)).take 500).map (·.seq)) buf (buf :: more)
    (by rintro k ⟨⟩; rfl)
  have lengths := congrArg List.length whole
  rw [length_append, length_cons] at lengths
  have right_sorted : more'.Pairwise Before :=
    (whole ▸ sorted'.2).sublist (sublist_append_right _ _)
  have none_left := @not_kept_of_left info _ more' _ back
  -- the other records stay as they are
  have rest : ∀ r, r ≠ buf.record →
      Same info (previous :: earlier) (buf :: more) earlier' more' r := by
    intro r other
    refine .inl ⟨others r other, ?_⟩
    rw [whole]
    exact keysOf_append _ _ fun k member => (records k member).trans_ne other.symm
  obtain ⟨⟨k, member, hit⟩, run⟩ | ⟨without, other, run⟩ := result
  · refine ⟨true, more', run, fun _ => ?_, fun is => absurd is (by decide)⟩
    have kept : Kept info (previous :: earlier) (buf :: more) buf.record := by
      have of_record' : ∀ p ∈ (keysOf buf.record (previous :: earlier)).take 500,
          p.record = k.record := fun p at_ => (of_record p at_).trans (records k member).symm
      obtain ⟨p, at_, pair⟩ := (excl_iff exclusion of_record').mp hit
      refine ⟨p, at_, k, mem_keysOf.mpr ⟨?_, records k member⟩, pair⟩
      rw [whole]
      exact mem_append_left _ member
    apply Spec.Read.key (sorted_pair.mpr ⟨left_sorted, right_sorted⟩)
    · simp only [length_cons]
      omega
    · refine ⟨?_, kept⟩
      rw [keysOf, filter_cons_of_pos (by simp)]
      rfl
    · intro r
      by_cases is : r = buf.record
      · subst is
        exact iff_of_true kept (.inl rfl)
      · rw [or_iff_right (Ne.symm is)]
        exact (rest r is).kept
    · intro k given
      by_cases is : k.record = buf.record
      · exact absurd (is ▸ given.2) none_left
      · exact (rest _ is).keys given
  · refine ⟨false, more', run, fun is => absurd is (by decide), fun _ => ?_⟩
    apply onward_of_same (sorted_pair.mpr ⟨left_sorted, right_sorted⟩)
    · simp only [length_cons]
      omega
    · intro r
      by_cases is : r = buf.record
      · subst is
        refine .inr ⟨?_, none_left⟩
        rintro ⟨p, at_, q, member, pair⟩
        have least : ∀ k ∈ more', buf.record ≤ k.record := by
          intro k member
          apply record_le_of_mem sorted'.2
          rw [whole]
          exact mem_append_right _ member
        have none := keysOf_eq_nil_of_head right_sorted least other
        rw [whole, keysOf, filter_append] at member
        obtain member | member := mem_append.mp member
        · have member := (mem_filter.mp member).1
          have of_record' : ∀ p ∈ (keysOf buf.record (previous :: earlier)).take 500,
              p.record = q.record := fun p at_ => (of_record p at_).trans (records q member).symm
          have hit := (excl_iff exclusion of_record').mpr ⟨p, at_, pair⟩
          rw [without q member] at hit
          exact Bool.false_ne_true hit
        · rw [keysOf] at none
          rw [none] at member
          exact not_mem_nil member
      · exact rest r is

theorem exists_pairLoop {fuel : Nat} (exclusion : info.exclusion = false)
    (enough : left.length + right.length < fuel) (sorted : Sorted [left, right]) :
    ∃ r, pairLoop info fuel [left, right] = some r ∧ (keptSpec info).Read left right r := by
  induction fuel generalizing left right with
  | zero => exact absurd enough (Nat.not_lt_zero _)
  | succ fuel ih =>
    cases left with
    | nil => exact ⟨_, rfl, .eof fun r => not_kept_of_left rfl⟩
    | cons previous earlier =>
      cases right with
      | nil => exact ⟨_, rfl, .eof fun r => not_kept_of_right rfl⟩
      | cons buf more =>
        have sorted' := sorted_pair.mp sorted
        rw [pairLoop]
        split
        next behind =>
          have onward := @onward_behind info _ _ _ _ sorted (cmp_le_iff.mp behind)
          have := onward.fewer
          obtain ⟨r, run, read⟩ := ih (by omega) onward.sorted
          exact ⟨r, run, onward.read read⟩
        next not_behind =>
          split
          next ahead =>
            have onward := @onward_ahead info _ _ _ _ sorted (le_cmp_iff.mp ahead)
            have := onward.fewer
            obtain ⟨r, run, read⟩ := ih (by omega) onward.sorted
            exact ⟨r, run, onward.read read⟩
          next not_ahead =>
            have same : previous.record = buf.record := by
              have := mt cmp_le_iff.mpr not_behind
              have := mt le_cmp_iff.mpr not_ahead
              omega
            obtain ⟨_ | _, more', run, given, onward⟩ := exists_record exclusion sorted same
            · have onward := onward rfl
              have := onward.fewer
              obtain ⟨r, run', read⟩ := ih (by omega) onward.sorted
              simp only [run]
              exact ⟨r, run', onward.read read⟩
            · simp only [run]
              exact ⟨_, rfl, given rfl⟩

theorem near_pair {p q : Key} (ordered : info.ordered = true) (close : near info p q = true) :
    Pair info p q := by
  obtain ⟨same, order, related⟩ := near_iff.mp close
  refine ⟨same, ?_⟩
  simp only [inRelation, decide_eq_true_eq] at related
  simp only [difference, ordered, inRange, decide_eq_true_eq, Bool.not_true, Bool.false_and,
    Bool.false_eq_true, if_false]
  omega

theorem Clear.hasPair (ordered : info.ordered = true)
    (clear : Clear info left right record) : HasPair info left right record := by
  obtain ⟨p, member, q, at_, is, close, -⟩ := clear
  exact ⟨p, member, q, at_, is, near_pair ordered close⟩

theorem Kept.hasPair (kept : Kept info left right record) : HasPair info left right record := by
  obtain ⟨p, member, q, at_, pair⟩ := kept
  have at_ := mem_keysOf.mp at_
  exact ⟨p, (mem_keysOf.mp (mem_of_mem_take member)).1, q, at_.1, at_.2, pair⟩

theorem exists_reads_clear (exclusion : info.exclusion = false)
    (first : info.ordered ∧ info.relation ≤ 3) {fuel : Nat}
    (enough : left.length + right.length < fuel) (sorted : Sorted [left, right]) :
    ∃ keys, readAll info fuel [left, right] = some keys ∧
      (∀ r, (∃ k ∈ keys, k.record = r) ↔ Clear info left right r) ∧
      ∀ k ∈ keys, k ∈ right ∧ ∃ p ∈ left, near info p k = true := by
  apply @exists_readAll _ (clearSpec info) _ _ _ enough sorted
  intro left right fuel enough sorted
  rw [rRead, if_pos ⟨first.1, first.2, exclusion⟩]
  exact exists_allLoop_two enough sorted

theorem exists_reads_kept (exclusion : info.exclusion = false)
    (other : ¬ (info.ordered ∧ info.relation ≤ 3)) {fuel : Nat}
    (enough : left.length + right.length < fuel) (sorted : Sorted [left, right]) :
    ∃ keys, readAll info fuel [left, right] = some keys ∧
      (∀ r, (∃ k ∈ keys, k.record = r) ↔ Kept info left right r) ∧
      ∀ k ∈ keys, (keysOf k.record right).head? = some k ∧ Kept info left right k.record := by
  apply @exists_readAll _ (keptSpec info) _ _ _ enough sorted
  intro left right fuel enough sorted
  rw [rRead, if_neg fun first => other ⟨first.1, first.2.1⟩]
  exact exists_pairLoop exclusion enough sorted

/-- The set gives the records with a pair, each with the right key of a pair, exactly when every
record with a pair is found and the key that it is given with is in a pair. -/
theorem two_finds_iff (exclusion : info.exclusion = false) (sorted : Sorted [left, right]) :
    Finds info left right ↔
      ∀ record, HasPair info left right record → Found info left right record := by
  have enough := Nat.lt_succ_self (left.length + right.length)
  by_cases first : info.ordered ∧ info.relation ≤ 3
  · simp only [Found, if_pos first]
    constructor
    · intro finds record pair
      obtain ⟨keys, run, records, -⟩ := exists_reads_clear exclusion first enough sorted
      obtain ⟨keys', run', exact, -⟩ := finds _ enough
      obtain rfl := Option.some.inj (run.symm.trans run')
      exact (records record).mp ((exact record).mpr pair)
    · intro clear fuel enough
      obtain ⟨keys, run, records, close⟩ := exists_reads_clear exclusion first enough sorted
      refine ⟨keys, run, fun r => (records r).trans ⟨fun has => has.hasPair first.1, clear r⟩, ?_⟩
      intro k member
      obtain ⟨at_, p, member', near⟩ := close k member
      exact ⟨at_, p, member', near_pair first.1 near⟩
  · simp only [Found, if_neg first]
    constructor
    · intro finds record pair
      obtain ⟨keys, run, records, given⟩ := exists_reads_kept exclusion first enough sorted
      obtain ⟨keys', run', exact, right_key⟩ := finds _ enough
      obtain rfl := Option.some.inj (run.symm.trans run')
      obtain ⟨k, member, rfl⟩ := (exact record).mpr pair
      exact ⟨(given k member).2, k, (given k member).1, (right_key k member).2⟩
    · intro found fuel enough
      obtain ⟨keys, run, records, given⟩ := exists_reads_kept exclusion first enough sorted
      refine ⟨keys, run, fun r => (records r).trans ⟨Kept.hasPair, fun has => (found r has).1⟩, ?_⟩
      intro k member
      obtain ⟨at_first, kept⟩ := given k member
      obtain ⟨-, same, at_, p, member', pair⟩ := found _ kept.hasPair
      obtain rfl := Option.some.inj (at_first.symm.trans at_)
      exact ⟨(mem_keysOf.mp (List.mem_of_mem_head? at_)).1, p, member', pair⟩

theorem two_finds_within : Finds ⟨false, false, 1, 5⟩ [⟨1, 10⟩] [⟨1, 11⟩] ↔
    ∀ record, HasPair ⟨false, false, 1, 5⟩ [⟨1, 10⟩] [⟨1, 11⟩] record →
      Found ⟨false, false, 1, 5⟩ [⟨1, 10⟩] [⟨1, 11⟩] record :=
  two_finds_iff rfl (by simp [Sorted])

/-- The record is given with its first right key, which is not within the distance. -/
theorem not_two_finds :
    readAll ⟨false, false, 1, 5⟩ 4 [[⟨1, 10⟩], [⟨1, 1⟩, ⟨1, 11⟩]] = some [⟨1, 1⟩] ∧
      ¬ Finds ⟨false, false, 1, 5⟩ [⟨1, 10⟩] [⟨1, 1⟩, ⟨1, 11⟩] := by
  have run : readAll ⟨false, false, 1, 5⟩ 4 [[⟨1, 10⟩], [⟨1, 1⟩, ⟨1, 11⟩]] = some [⟨1, 1⟩] := by
    decide
  refine ⟨run, fun finds => ?_⟩
  obtain ⟨keys, run', -, right_key⟩ := finds 4 (by decide)
  obtain rfl := Option.some.inj (run.symm.trans run')
  obtain ⟨-, p, member, -, near⟩ := right_key _ mem_cons_self
  obtain rfl := mem_singleton.mp member
  exact absurd near (by decide)

end Zebra.Rset.Prox
