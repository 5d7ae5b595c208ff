import Mathlib.Data.List.DropRight
import Mathlib.Data.List.InsertIdx
import Zebra.Lib.Comparator

/-!
# Keeping the first records of a stable sort

Sorting a list is putting in its elements one after another, each behind all that are not above it.
Whoever wants the first elements only needs to keep the first ones on the way.
-/

namespace Zebra

open List

variable {α β : Type} {cmp : α → α → Int}

/-- Compare by the first function that tells the arguments apart. -/
def lexCompare : List (α → α → Int) → α → α → Int
  | [], _, _ => 0
  | cmp :: rest, a, b => if cmp a b ≠ 0 then cmp a b else lexCompare rest a b

theorem lexCompare_comparator {cmps : List (α → α → Int)} (laws : ∀ cmp ∈ cmps, Comparator cmp) :
    Comparator (lexCompare cmps) := by
  induction cmps with
  | nil => exact ⟨fun _ _ => Iff.rfl, fun _ _ _ _ _ => le_rfl⟩
  | cons cmp rest induction =>
    have later := induction fun c mem => laws c (.tail _ mem)
    exact (laws cmp mem_cons_self).lex later

/-- The list in order, with elements that compare equal as they were. -/
def stableSort (cmp : α → α → Int) (l : List α) : List α := l.insertionSort fun a b => cmp a b ≤ 0

def insertBehind (cmp : α → α → Int) (x : α) (l : List α) : List α :=
  l.orderedInsert (fun x a => 0 < cmp a x) x

theorem pairwise_stableSort (law : Comparator cmp) (l : List α) :
    (stableSort cmp l).Pairwise fun a b => cmp a b ≤ 0 :=
  law.pairwise_qsort l

theorem stableSort_perm (l : List α) : (stableSort cmp l).Perm l := perm_insertionSort _ l

@[simp] theorem insertBehind_nil (x : α) : insertBehind cmp x [] = [x] := rfl

theorem insertBehind_cons_of_le {a x : α} (le : cmp a x ≤ 0) (l : List α) :
    insertBehind cmp x (a :: l) = a :: insertBehind cmp x l :=
  orderedInsert_of_not_le _ _ (not_lt.mpr le)

theorem insertBehind_cons_of_lt {a x : α} (lt : 0 < cmp a x) (l : List α) :
    insertBehind cmp x (a :: l) = x :: a :: l :=
  orderedInsert_cons_of_le _ _ lt

theorem insertBehind_append {x : α} {front : List α} (back : List α)
    (below : ∀ a ∈ front, cmp a x ≤ 0) (above : ∀ a ∈ back, 0 < cmp a x) :
    insertBehind cmp x (front ++ back) = front ++ x :: back := by
  induction front with
  | nil =>
    cases back with
    | nil => rfl
    | cons a back => exact insertBehind_cons_of_lt (above a mem_cons_self) back
  | cons a front induction =>
    rw [cons_append, insertBehind_cons_of_le (below a mem_cons_self),
      induction fun b mem => below b (.tail _ mem), cons_append]

def insertAhead (cmp : α → α → Int) (x : α) (l : List α) : List α :=
  l.orderedInsert (fun x a => cmp x a ≤ 0) x

theorem insertAhead_cons_of_le {a x : α} (le : cmp x a ≤ 0) (l : List α) :
    insertAhead cmp x (a :: l) = x :: a :: l :=
  orderedInsert_cons_of_le _ _ le

theorem insertAhead_cons_of_lt {a x : α} (lt : 0 < cmp x a) (l : List α) :
    insertAhead cmp x (a :: l) = a :: insertAhead cmp x l :=
  orderedInsert_of_not_le _ _ lt.not_ge

theorem stableSort_cons (a : α) (l : List α) :
    stableSort cmp (a :: l) = insertAhead cmp a (stableSort cmp l) := rfl

/-- One put in at the front and one at the back do not notice each other. -/
theorem insertAhead_insertBehind (law : Comparator cmp) (a x : α) (l : List α) :
    insertAhead cmp a (insertBehind cmp x l) = insertBehind cmp x (insertAhead cmp a l) := by
  induction l with
  | nil =>
    rcases le_or_gt (cmp a x) 0 with below | above
    · exact (insertAhead_cons_of_le below []).trans (insertBehind_cons_of_le below []).symm
    · exact (insertAhead_cons_of_lt above []).trans (insertBehind_cons_of_lt above []).symm
  | cons b l induction =>
    rcases le_or_gt (cmp a b) 0 with ahead | behind
    · rw [insertAhead_cons_of_le ahead]
      rcases le_or_gt (cmp b x) 0 with below | above
      · have a_below := law.trans a b x ahead below
        rw [insertBehind_cons_of_le below, insertBehind_cons_of_le a_below,
          insertBehind_cons_of_le below, insertAhead_cons_of_le ahead]
      · rw [insertBehind_cons_of_lt above]
        rcases le_or_gt (cmp a x) 0 with a_below | a_above
        · rw [insertAhead_cons_of_le a_below, insertBehind_cons_of_le a_below,
            insertBehind_cons_of_lt above]
        · rw [insertAhead_cons_of_lt a_above, insertBehind_cons_of_lt a_above,
            insertAhead_cons_of_le ahead]
    · rw [insertAhead_cons_of_lt behind]
      rcases le_or_gt (cmp b x) 0 with below | above
      · rw [insertBehind_cons_of_le below, insertBehind_cons_of_le below,
          insertAhead_cons_of_lt behind, induction]
      · -- `x` is below `b`, and `b` below `a`
        have a_above : 0 < cmp a x := by
          by_contra le
          have le_xb : cmp x b ≤ 0 := ((law.swap x b).mpr above).le
          have := law.trans a x b (not_lt.mp le) le_xb
          omega
        rw [insertBehind_cons_of_lt above, insertBehind_cons_of_lt above,
          insertAhead_cons_of_lt a_above, insertAhead_cons_of_lt behind]

theorem stableSort_concat (law : Comparator cmp) (l : List α) (x : α) :
    stableSort cmp (l ++ [x]) = insertBehind cmp x (stableSort cmp l) := by
  induction l with
  | nil => rfl
  | cons a l induction =>
    rw [cons_append, stableSort_cons, induction, insertAhead_insertBehind law, stableSort_cons]

/-- For the first elements only the first elements matter. -/
theorem take_insertBehind (x : α) (k : Nat) (l : List α) :
    (insertBehind cmp x (l.take k)).take k = (insertBehind cmp x l).take k := by
  induction l generalizing k with
  | nil => rw [take_nil]
  | cons a l induction =>
    cases k with
    | zero => rfl
    | succ k =>
      rw [take_succ_cons]
      rcases le_or_gt (cmp a x) 0 with below | above
      · rw [insertBehind_cons_of_le below, insertBehind_cons_of_le below, take_succ_cons,
          take_succ_cons, induction]
      · rw [insertBehind_cons_of_lt above, insertBehind_cons_of_lt above, take_succ_cons,
          take_succ_cons]
        cases k with
        | zero => rfl
        | succ k => rw [take_succ_cons, take_succ_cons, take_take, min_eq_left (Nat.le_succ k)]

/-- Scan from the end for an entry to put the new one behind; the last entry of a full table
goes. -/
def offer (stops : α → Bool) (max : Nat) (new : α) (entries : List α) : List α :=
  let i := (entries.rdropWhile fun entry => !stops entry).length
  if i = max then entries
  else (if entries.length = max then entries.dropLast else entries).insertIdx i new

theorem rdropWhile_append_rtakeWhile (p : α → Bool) (l : List α) :
    l.rdropWhile p ++ l.rtakeWhile p = l := by
  rw [rdropWhile, rtakeWhile, ← reverse_append, takeWhile_append_dropWhile, reverse_reverse]

theorem insertIdx_length_append (front back : List α) (x : α) :
    (front ++ back).insertIdx front.length x = front ++ x :: back := by
  induction front with
  | nil => rw [nil_append, length_nil, insertIdx_zero, nil_append]
  | cons a front induction =>
    rw [cons_append, length_cons, insertIdx_succ_cons, induction, cons_append]

theorem offer_map (f : α → β) (stops : β → Bool) (max : Nat) (new : α) (entries : List α) :
    offer stops max (f new) (entries.map f) =
      (offer (fun a => stops (f a)) max new entries).map f := by
  have scan : ((entries.map f).rdropWhile fun entry => !stops entry).length =
      (entries.rdropWhile fun entry => !stops (f entry)).length := by
    rw [rdropWhile, rdropWhile, ← map_reverse, dropWhile_map, length_reverse, length_map,
      length_reverse]
    rfl
  rw [offer, offer, scan, length_map]
  split
  · rfl
  · split
    · rw [← map_dropLast, map_insertIdx]
    · rw [map_insertIdx]

theorem scan_split {stops : α → Bool} {new : α} {entries : List α} (law : Comparator cmp)
    (order : entries.Pairwise fun a b => cmp a b ≤ 0)
    (stop : ∀ a ∈ entries, stops a = true ↔ cmp a new ≤ 0) :
    ∃ front back, entries = front ++ back ∧ front = entries.rdropWhile (fun entry => !stops entry) ∧
      (∀ a ∈ front, cmp a new ≤ 0) ∧ ∀ a ∈ back, 0 < cmp a new := by
  obtain ⟨front, front_def⟩ : ∃ front, front = entries.rdropWhile fun entry => !stops entry :=
    ⟨_, rfl⟩
  have whole := rdropWhile_append_rtakeWhile (fun entry => !stops entry) entries
  rw [← front_def] at whole
  refine ⟨front, _, whole.symm, front_def, ?_, ?_⟩
  · rcases front.eq_nil_or_concat' with none | ⟨init, last, last_def⟩
    · intro a mem
      rw [none] at mem
      exact absurd mem not_mem_nil
    · have last_below : cmp last new ≤ 0 := by
        have mem : last ∈ entries := by
          rw [← whole, last_def]
          exact mem_append_left _ mem_concat_self
        have ne : (entries.rdropWhile fun entry => !stops entry) ≠ [] := by
          rw [← front_def, last_def]
          exact concat_ne_nil _ _
        have stays := rdropWhile_last_not _ _ ne
        simp only [← front_def, last_def, getLast_append_singleton] at stays
        rw [← stop last mem]
        simpa using stays
      intro a mem
      rw [last_def] at mem
      rcases mem_append.mp mem with early | late
      · rw [← whole, last_def, append_assoc] at order
        have le := (pairwise_append.mp order).2.2 a early last (mem_append_left _ (by simp))
        exact law.trans a last new le last_below
      · rw [mem_singleton.mp late]
        exact last_below
  · intro a mem
    have go := mem_rtakeWhile_imp mem
    have inside : a ∈ entries := whole ▸ mem_append_right _ mem
    rw [Bool.not_eq_true', Bool.eq_false_iff, Ne, stop a inside] at go
    exact not_le.mp go

/-- Offering a record to a table in order keeps the first records with it put in. -/
theorem offer_eq_take {stops : α → Bool} {max : Nat} {new : α} {entries : List α}
    (law : Comparator cmp) (order : entries.Pairwise fun a b => cmp a b ≤ 0)
    (size : entries.length ≤ max) (stop : ∀ a ∈ entries, stops a = true ↔ cmp a new ≤ 0) :
    offer stops max new entries = (insertBehind cmp new entries).take max := by
  obtain ⟨front, back, whole, scan, below, above⟩ := scan_split law order stop
  have sizes : front.length + back.length = entries.length := by rw [whole, length_append]
  rw [offer, ← scan]
  rcases Nat.lt_or_ge front.length max with room | full
  · obtain ⟨k, k_def⟩ : ∃ k, max - front.length = k + 1 := ⟨max - front.length - 1, by omega⟩
    have shorter : (if entries.length = max then entries.dropLast else entries) =
        front ++ back.take k := by
      split
      · have fewer : entries.length - 1 = front.length + k := by omega
        rw [dropLast_eq_take, fewer, whole, take_length_add_append]
      · rw [take_of_length_le (by omega), whole]
    calc (if front.length = max then entries
          else (if entries.length = max then entries.dropLast else entries).insertIdx
            front.length new)
        = (front ++ back.take k).insertIdx front.length new := by rw [if_neg room.ne, shorter]
      _ = front ++ new :: back.take k := insertIdx_length_append _ _ _
      _ = (front ++ new :: back).take max := by
          rw [take_append, take_of_length_le room.le, k_def, take_succ_cons]
      _ = (insertBehind cmp new entries).take max := by
          rw [whole, insertBehind_append back below above]
  · have none : back = [] := length_eq_zero_iff.mp (by omega)
    rw [none, append_nil] at whole
    have last := insertBehind_append [] below (by simp)
    rw [if_pos (by omega), whole, ← append_nil front, last, append_nil,
      take_append_of_le_length full, take_of_length_le (by omega)]

def offerAll (stops : α → α → Bool) (max : Nat) (news : List α) : List α :=
  news.foldl (fun entries new => offer (stops new) max new entries) []

theorem offerAll_concat (stops : α → α → Bool) (max : Nat) (news : List α) (new : α) :
    offerAll stops max (news ++ [new]) = offer (stops new) max new (offerAll stops max news) := by
  rw [offerAll, foldl_append, foldl_cons, foldl_nil, offerAll]

/-- The table holds the first records of those offered, in order. -/
theorem offerAll_eq_take {stops : α → α → Bool} (law : Comparator cmp) (max : Nat) (news : List α)
    (stop : ∀ new ∈ news, ∀ a ∈ news, stops new a = true ↔ cmp a new ≤ 0) :
    offerAll stops max news = (stableSort cmp news).take max := by
  induction news using List.reverseRecOn with
  | nil => exact (take_nil).symm
  | append_singleton news new induction =>
    have before := induction fun new mem a mem' =>
      stop new (mem_append_left _ mem) a (mem_append_left _ mem')
    have order := pairwise_stableSort law news
    rw [offerAll_concat, before,
      offer_eq_take law (order.sublist (take_sublist _ _)) (length_take_le _ _),
      stableSort_concat law, take_insertBehind]
    intro a mem
    have offered := (stableSort_perm news).subset (mem_of_mem_take mem)
    exact stop new (by simp) a (mem_append_left _ offered)

end Zebra
