import Mathlib.Algebra.Order.BigOperators.Group.Finset
import Mathlib.Data.List.GetD
import Mathlib.Data.List.TakeWhile
import Zebra.Lib.BinHeap
import Zebra.Lib.Merging
import Zebra.Rset.KeyControl

/-!
# Truncation

`trunc.c`: the posting lists of all terms that a truncated term stands for become one set.  They are
merged with a heap of their first keys; more of them than a chunk are merged chunk by chunk into
temporary sets and these merged again.  A set is the list of its keys in the order they are written,
which is the order a temporary set gives them back.
-/

namespace Zebra.Trunc

open List Rset BinHeap Function Prod

variable {levels : Nat}

/-- `struct trunc_info`; `slot i` is the key in `heap` and the number in `indx` of `ptr[i]`. -/
structure TruncInfo (levels : Nat) where
  heapnum : Nat
  slot : Nat → LevelKey levels × Nat

/-- `key_compare`, which is all that `cmp` ever is. -/
def keyCmp (a b : LevelKey levels) : Int := keyCompare a.val b.val

def slotCmp (a b : LevelKey levels × Nat) : Int := keyCmp a.1 b.1

def heapDelete (ti : TruncInfo levels) : TruncInfo levels where
  heapnum := ti.heapnum - 1
  slot := delete slotCmp (ti.heapnum - 1) ti.slot

def heapInsert (ti : TruncInfo levels) (buf : LevelKey levels) (indx : Nat) : TruncInfo levels where
  heapnum := ti.heapnum + 1
  slot := insert slotCmp ti.heapnum ti.slot (buf, indx)

/-- `heap_init`; the slots hold anything. -/
def heapInit : TruncInfo levels where
  heapnum := 0
  slot := default

/-- The heap, and what the lists that are open still give. -/
structure Merge (levels : Nat) where
  ti : TruncInfo levels
  pp : Nat → List (LevelKey levels)

/-- The loop that reads until a key is more than `cmp_border` beyond the one that is written. -/
def readPast (cmpBorder : Int) (top : LevelKey levels) :
    List (LevelKey levels) → Option (LevelKey levels × List (LevelKey levels))
  | [] => none
  | buf :: rest => if keyCmp buf top > cmpBorder then some (buf,
      rest) else readPast cmpBorder top rest

/-- The next key of the list whose key is written, the very next one where there is no border. -/
def readNext (border : Option Int) (top : LevelKey levels) :
    List (LevelKey levels) → Option (LevelKey levels × List (LevelKey levels)) :=
  match border with
  | none => fun
    | [] => none
    | buf :: rest => some (buf, rest)
  | some cmpBorder => readPast cmpBorder top

/-- The list whose key is written is read on, and the heap holds its next key instead. -/
def advance (border : Option Int) (m : Merge levels) : Merge levels :=
  let top := m.ti.slot 1
  match readNext border top.1 (m.pp top.2) with
  | none => { ti := heapDelete m.ti, pp := Function.update m.pp top.2 [] }
  | some (buf, rest) =>
    { ti := heapInsert (heapDelete m.ti) buf top.2, pp := Function.update m.pp top.2 rest }

/-- `while (ti->heapnum)`: the keys that are written; nothing where the loop does not end within
`fuel`. -/
def mergeLoop (border : Option Int) : Nat → Merge levels → Option (List (LevelKey levels))
  | 0, m => if m.ti.heapnum = 0 then some [] else none
  | fuel + 1, m =>
    if m.ti.heapnum = 0 then some []
    else (mergeLoop border fuel (advance border m)).map ((m.ti.slot 1).1 :: ·)

/-- The first key of list `i` is put in the heap; a list without keys is closed. -/
def openList (i : Nat) (m : Merge levels) : Merge levels :=
  match m.pp i with
  | [] => m
  | buf :: rest => { ti := heapInsert m.ti buf i, pp := Function.update m.pp i rest }

/-- The lists are opened from the last to the first and merged. -/
def merge (border : Option Int) (lists : List (List (LevelKey levels))) :
    Option (List (LevelKey levels)) :=
  mergeLoop border (lists.map List.length).sum
    ((List.range lists.length).foldr openList { ti := heapInit, pp := fun i => lists.getD i [] })

/-- Which of the indexes of the register is open. -/
inductive IsamType
  | isamc
  | isams
  | isamb

/-- The index of posting lists: what is read at a position, in order of the keys. -/
structure Isam (levels : Nat) where
  type : IsamType
  postings : Nat → List (LevelKey levels)
  empty : postings 0 = []
  ascending : ∀ pos, Ascending keyCmp (postings pos)

/-- The lists from `low` to `high` are merged at once. -/
def truncLeaf (isam : Isam levels) (isamP : Nat → Nat) (preservePosition : Bool) (low high : Nat) :
    Option (List (LevelKey levels)) :=
  let lists := (List.range (high - low)).map fun i => isam.postings (isamP (low + i))
  match isam.type with
  | .isamc => merge (if preservePosition then none else some 1) lists
  | .isams => merge (some 1) lists
  | .isamb => merge (if preservePosition then none else some 1) lists

/-- `for (i = from; i < to; i += i_add)`: where the chunks begin and end. -/
def chunks (iAdd high : Nat) : Nat → Nat → List (Nat × Nat)
  | 0, _ => []
  | fuel + 1, i =>
    if i < high then
      (i, if iAdd ≤ high - i then i + iAdd else high) :: chunks iAdd high fuel (i + iAdd)
    else []

/-- `rset_trunc_r`; nothing where it goes deeper than `fuel`. -/
def rsetTruncR (isam : Isam levels) (isamP : Nat → Nat) (mergeChunk : Nat)
    (preservePosition : Bool) :
    Nat → Nat → Nat → Option (List (LevelKey levels))
  | 0, _, _ => none
  | fuel + 1, low, high =>
    if high - low > mergeChunk then
      let iAdd := (high - low) / mergeChunk + 1
      let cmpBorder := if preservePosition then 0 else 1
      ((chunks iAdd high (high - low) low).mapM fun chunk =>
        rsetTruncR isam isamP mergeChunk preservePosition fuel chunk.1 chunk.2).bind
          (merge (some cmpBorder))
    else truncLeaf isam isamP preservePosition low high

theorem keyCmp_comparator : Comparator (keyCmp : LevelKey levels → LevelKey levels → Int) where
  swap a b := by
    have swap := (itKeyControl levels).swap a b
    change keyCmp b a = -keyCmp a b at swap
    omega
  trans _ _ _ := (itKeyControl levels).le_trans

theorem slotCmp_comparator : Comparator (slotCmp : LevelKey levels × Nat → _ → Int) :=
  keyCmp_comparator.comap fst

/-- The keys that are in the heap, with the numbers of their lists. -/
def TruncInfo.contents (ti : TruncInfo levels) : Multiset (LevelKey levels × Nat) :=
  BinHeap.contents ti.heapnum ti.slot

/-- What is left to merge of the lists: of each list at most the first key is in the heap. -/
structure Represents (m : Merge levels) (lists : Nat → List (LevelKey levels)) : Prop where
  ordered : Ordered slotCmp m.ti.heapnum m.ti.slot
  nodup : (m.ti.contents.map Prod.snd).Nodup
  held : ∀ x ∈ m.ti.contents, lists x.2 = x.1 :: m.pp x.2
  others : ∀ i, i ∉ m.ti.contents.map Prod.snd → lists i = m.pp i

/-- The lists that have no key in the heap are at their ends. -/
def Drained (m : Merge levels) : Prop := ∀ i, i ∉ m.ti.contents.map Prod.snd → m.pp i = []

theorem contents_heapInsert (ti : TruncInfo levels) (buf : LevelKey levels) (indx : Nat) :
    (heapInsert ti buf indx).contents = (buf, indx) ::ₘ ti.contents :=
  BinHeap.contents_insert (buf, indx)

theorem contents_heapDelete {ti : TruncInfo levels} (some : ti.heapnum ≠ 0) :
    ti.contents = ti.slot 1 ::ₘ (heapDelete ti).contents := by
  obtain ⟨n, eq⟩ := Nat.exists_eq_succ_of_ne_zero some
  rw [TruncInfo.contents, TruncInfo.contents, heapDelete, eq]
  exact contents_delete slotCmp_comparator

variable {lists : Nat → List (LevelKey levels)} {m : Merge levels}
variable {i fuel iAdd high : Nat}

/-- The first key of a list that has none in the heap is put there. -/
theorem Represents.insert
    {buf : LevelKey levels} {rest : List (LevelKey levels)} (holds : Represents m lists)
    (fresh : i ∉ m.ti.contents.map snd) (head : m.pp i = buf :: rest) :
    Represents { ti := heapInsert m.ti buf i, pp := update m.pp i rest } lists := by
  have whole : lists i = buf :: rest := (holds.others i fresh).trans head
  refine ⟨holds.ordered.insert slotCmp_comparator _, ?_, fun x mem => ?_, fun j absent => ?_⟩
  · rw [contents_heapInsert, Multiset.map_cons]
    exact Multiset.nodup_cons.mpr ⟨fresh, holds.nodup⟩
  · dsimp only at mem ⊢
    rw [contents_heapInsert] at mem
    rcases Multiset.mem_cons.mp mem with rfl | mem
    · rw [update_self]
      exact whole
    · have other : x.2 ≠ i := fun eq => fresh (eq ▸ Multiset.mem_map_of_mem snd mem)
      rw [update_of_ne other]
      exact holds.held x mem
  · dsimp only at absent ⊢
    rw [contents_heapInsert, Multiset.map_cons, Multiset.mem_cons, not_or] at absent
    rw [update_of_ne absent.1]
    exact holds.others j absent.2

/-- The first key of the heap is taken out, and its list goes on with `l`. -/
theorem Represents.delete
    (holds : Represents m lists) (some : m.ti.heapnum ≠ 0) (l : List (LevelKey levels)) :
    (m.ti.slot 1).2 ∉ (heapDelete m.ti).contents.map snd ∧
      Represents { ti := heapDelete m.ti, pp := update m.pp (m.ti.slot 1).2 l }
        (update lists (m.ti.slot 1).2 l) := by
  have contents := contents_heapDelete some
  have nodup := holds.nodup
  rw [contents, Multiset.map_cons, Multiset.nodup_cons] at nodup
  obtain ⟨n, eq⟩ := Nat.exists_eq_succ_of_ne_zero some
  have ordered : Ordered slotCmp (n + 1) m.ti.slot := by
    have ordered := holds.ordered
    rwa [eq] at ordered
  refine ⟨nodup.1, ?_, nodup.2, fun x mem => ?_, fun j absent => ?_⟩
  · have after := ordered.delete slotCmp_comparator
    dsimp only [heapDelete]
    rw [eq]
    exact after
  · have other : x.2 ≠ (m.ti.slot 1).2 :=
      fun same => nodup.1 (same ▸ Multiset.mem_map_of_mem snd mem)
    dsimp only
    rw [update_of_ne other, update_of_ne other]
    apply holds.held x
    rw [contents]
    exact Multiset.mem_cons_of_mem mem
  · rcases eq_or_ne j (m.ti.slot 1).2 with rfl | other
    · dsimp only
      rw [update_self, update_self]
    · dsimp only
      rw [update_of_ne other, update_of_ne other]
      apply holds.others j
      rw [contents, Multiset.map_cons, Multiset.mem_cons, not_or]
      exact ⟨other, absent⟩

def skip (border : Option Int) (top : LevelKey levels) (rest : List (LevelKey levels)) :
    List (LevelKey levels) :=
  match readNext border top rest with
  | none => []
  | some (buf, rest) => buf :: rest

theorem advance_spec (border : Option Int) (holds : Represents m lists) (drained : Drained m)
    (some : m.ti.heapnum ≠ 0) :
    Represents (advance border m) (update lists (m.ti.slot 1).2
      (skip border (m.ti.slot 1).1 (m.pp (m.ti.slot 1).2))) ∧ Drained (advance border m) := by
  have contents := contents_heapDelete some
  have ended : ∀ (l : List (LevelKey levels)) (i : Nat),
      i ∉ (heapDelete m.ti).contents.map snd → i ≠ (m.ti.slot 1).2 →
      update m.pp (m.ti.slot 1).2 l i = [] := by
    intro l i absent other
    rw [update_of_ne other]
    apply drained i
    rw [contents, Multiset.map_cons, Multiset.mem_cons, not_or]
    exact ⟨other, absent⟩
  unfold advance skip
  dsimp only
  cases readNext border (m.ti.slot 1).1 (m.pp (m.ti.slot 1).2) with
  | none =>
    refine ⟨(holds.delete some []).2, fun i absent => ?_⟩
    rcases eq_or_ne i (m.ti.slot 1).2 with rfl | other
    · exact update_self _ _ _
    · exact ended [] i absent other
  | some next =>
    obtain ⟨buf, rest⟩ := next
    obtain ⟨fresh, deleted⟩ := holds.delete some (buf :: rest)
    have inserted := deleted.insert fresh (update_self _ _ _)
    rw [update_idem] at inserted
    refine ⟨inserted, fun i absent => ?_⟩
    dsimp only at absent ⊢
    rw [contents_heapInsert, Multiset.map_cons, Multiset.mem_cons, not_or] at absent
    exact ended rest i absent.2 absent.1

/-- The key that is written is the least of the first keys of the lists. -/
theorem Represents.top
    (holds : Represents m lists) (drained : Drained m) (some : m.ti.heapnum ≠ 0) :
    lists (m.ti.slot 1).2 = (m.ti.slot 1).1 :: m.pp (m.ti.slot 1).2 ∧
      ∀ j y tail, lists j = y :: tail → keyCmp (m.ti.slot 1).1 y ≤ 0 := by
  have first : m.ti.slot 1 ∈ m.ti.contents :=
    mem_contents.mpr ⟨1, le_rfl, Nat.one_le_iff_ne_zero.mpr some, rfl⟩
  refine ⟨holds.held _ first, fun j y tail head => ?_⟩
  rcases Classical.em (j ∈ m.ti.contents.map snd) with mem | absent
  · obtain ⟨x, there, rfl⟩ := Multiset.mem_map.mp mem
    have whole := holds.held x there
    rw [head] at whole
    obtain ⟨i, pos, le, rfl⟩ := mem_contents.mp there
    cases whole
    exact holds.ordered.root_le slotCmp_comparator pos le
  · rw [holds.others j absent, drained j absent] at head
    cases head

/-- How many keys are left in the first `n` lists. -/
def left (n : Nat) (lists : Nat → List (LevelKey levels)) : Nat :=
  ∑ i ∈ Finset.range n, (lists i).length

theorem left_update {n : Nat} {l : List (LevelKey levels)}
    (low : i < n) (shorter : l.length < (lists i).length) :
    left n (update lists i l) < left n lists := by
  apply Finset.sum_lt_sum
  · intro j _
    rcases eq_or_ne j i with rfl | other
    · rw [update_self]
      exact shorter.le
    · rw [update_of_ne other]
  · refine ⟨i, Finset.mem_range.mpr low, ?_⟩
    rw [update_self]
    exact shorter

theorem Represents.finished
    (holds : Represents m lists) (drained : Drained m) (zero : m.ti.heapnum = 0) (i : Nat) :
    lists i = [] := by
  have empty : m.ti.contents = 0 := by
    rw [TruncInfo.contents, zero]
    rfl
  have absent : i ∉ m.ti.contents.map snd := by
    rw [empty]
    exact Multiset.notMem_zero i
  rw [holds.others i absent, drained i absent]

theorem mergeLoop_spec {border : Option Int}
    (suffixes : Merging.Suffixes (skip border : LevelKey levels → _ → _)) {n : Nat}
    (holds : Represents m lists) (drained : Drained m) (few : ∀ i, n ≤ i → lists i = [])
    (enough : left n lists ≤ fuel) :
    ∃ out, mergeLoop border fuel m = some out ∧ Merging keyCmp (skip border) lists out := by
  induction fuel generalizing m lists with
  | zero =>
    have none : ∀ i, lists i = [] := by
      intro i
      rcases Nat.lt_or_ge i n with low | high
      · have zero := Finset.sum_eq_zero_iff.mp (Nat.le_zero.mp enough) i
          (Finset.mem_range.mpr low)
        exact length_eq_zero_iff.mp zero
      · exact few i high
    have zero : m.ti.heapnum = 0 := by
      by_contra more
      have head := (holds.top drained more).1
      rw [none] at head
      cases head
    exact ⟨[], if_pos zero, Merging.nil none⟩
  | succ fuel induction =>
    rcases Classical.em (m.ti.heapnum = 0) with zero | more
    · exact ⟨[], if_pos zero, Merging.nil (holds.finished drained zero)⟩
    · obtain ⟨head, least⟩ := holds.top drained more
      obtain ⟨holds', drained'⟩ := advance_spec border holds drained more
      have low : (m.ti.slot 1).2 < n := by
        by_contra high
        rw [few _ (Nat.le_of_not_lt high)] at head
        cases head
      have shorter : (skip border (m.ti.slot 1).1 (m.pp (m.ti.slot 1).2)).length <
          (lists (m.ti.slot 1).2).length := by
        rw [head]
        exact Nat.lt_succ_of_le (suffixes _ _).length_le
      have less := left_update low shorter
      have few' : ∀ i, n ≤ i → update lists (m.ti.slot 1).2
          (skip border (m.ti.slot 1).1 (m.pp (m.ti.slot 1).2)) i = [] := by
        intro i high
        rw [update_of_ne (low.trans_le high).ne']
        exact few i high
      obtain ⟨out, loop, merging⟩ := induction holds' drained' few' (by omega)
      refine ⟨(m.ti.slot 1).1 :: out, ?_, Merging.cons head least merging⟩
      rw [mergeLoop, if_neg more, loop]
      rfl

theorem openList_spec {is : List Nat} (nodup : is.Nodup) (holds : Represents m lists)
    (outside : ∀ i ∈ is, i ∉ m.ti.contents.map snd) :
    Represents (is.foldr openList m) lists ∧
      (∀ i, i ∈ (is.foldr openList m).ti.contents.map snd →
        i ∈ is ∨ i ∈ m.ti.contents.map snd) ∧
      ∀ i ∈ is, i ∉ (is.foldr openList m).ti.contents.map snd → lists i = [] := by
  induction is with
  | nil => exact ⟨holds, fun _ mem => .inr mem, fun _ mem => by cases mem⟩
  | cons i is induction =>
    obtain ⟨notIn, rest⟩ := nodup_cons.mp nodup
    obtain ⟨later, within, ended⟩ :=
      induction rest fun j mem => outside j (.tail _ mem)
    have fresh : i ∉ (is.foldr openList m).ti.contents.map snd := by
      intro mem
      rcases within i mem with mem | mem
      · exact notIn mem
      · exact outside i (mem_cons_self ..) mem
    rw [foldr_cons]
    generalize is.foldr openList m = m' at *
    cases head : m'.pp i with
    | nil =>
      have same : openList i m' = m' := by rw [openList, head]
      rw [same]
      refine ⟨later, fun j mem => ?_, fun j mem absent => ?_⟩
      · rcases within j mem with mem | mem
        · exact .inl (.tail _ mem)
        · exact .inr mem
      · rcases mem_cons.mp mem with rfl | mem
        · exact (later.others j absent).trans head
        · exact ended j mem absent
    | cons buf tail =>
      have opened : openList i m' =
          { ti := heapInsert m'.ti buf i, pp := update m'.pp i tail } := by
        rw [openList, head]
      rw [opened]
      dsimp only
      rw [contents_heapInsert, Multiset.map_cons]
      refine ⟨later.insert fresh head, fun j mem => ?_, fun j mem absent => ?_⟩
      · rcases Multiset.mem_cons.mp mem with rfl | mem
        · exact .inl (mem_cons_self ..)
        · rcases within j mem with mem | mem
          · exact .inl (.tail _ mem)
          · exact .inr mem
      · rw [Multiset.mem_cons, not_or] at absent
        rcases mem_cons.mp mem with rfl | mem
        · exact absurd rfl absent.1
        · exact ended j mem absent.2

theorem left_getD (lists : List (List (LevelKey levels))) :
    left lists.length (fun i => lists.getD i []) = (lists.map List.length).sum := by
  induction lists with
  | nil => rfl
  | cons l lists induction =>
    rw [left, length_cons, Finset.sum_range_succ', map_cons, sum_cons, Nat.add_comm,
      ← induction]
    rfl

theorem merge_merging {border : Option Int}
    (suffixes : Merging.Suffixes (skip border : LevelKey levels → _ → _))
    (lists : List (List (LevelKey levels))) :
    ∃ out, merge border lists = some out ∧
      Merging keyCmp (skip border) (fun i => lists.getD i []) out := by
  have start : Represents { ti := heapInit, pp := fun i => lists.getD i [] }
      (fun i => lists.getD i []) := by
    refine ⟨fun i low high => ?_, Multiset.nodup_zero, fun x mem => ?_, fun _ _ => rfl⟩
    · exact absurd (low.trans high) (Nat.not_succ_le_zero 1)
    · exact absurd mem (Multiset.notMem_zero x)
  obtain ⟨holds, within, ended⟩ := openList_spec nodup_range start
    fun i _ => Multiset.notMem_zero i
  have few : ∀ i, lists.length ≤ i → lists.getD i [] = [] := fun i high =>
    getD_eq_default _ _ high
  apply mergeLoop_spec suffixes holds _ few (left_getD lists).le
  intro i absent
  rw [← holds.others i absent]
  rcases Nat.lt_or_ge i lists.length with low | high
  · exact ended i (mem_range.mpr low) absent
  · exact few i high

/-- A key stands for those that follow it within the border. -/
def Stands (border : Int) (a b : LevelKey levels) : Prop := 0 ≤ keyCmp b a ∧ keyCmp b a ≤ border

theorem stands_refl {border : Int} (nonneg : 0 ≤ border) (a : LevelKey levels) :
    Stands border a a := by
  have zero : keyCmp a a = 0 := (itKeyControl levels).cmp_self a
  exact ⟨zero.ge, zero.le.trans nonneg⟩

theorem Stands.trans {border : Int} {a b c : LevelKey levels} (left : Stands border a b)
    (right : Stands border b c) : Stands border a c := by
  have swap_ab : keyCmp b a = -keyCmp a b := (itKeyControl levels).swap a b
  have swap_bc : keyCmp c b = -keyCmp b c := (itKeyControl levels).swap b c
  have swap_ac : keyCmp c a = -keyCmp a c := (itKeyControl levels).swap a c
  obtain ⟨low₁, high₁⟩ := left
  obtain ⟨low₂, high₂⟩ := right
  have chain : keyCmp a c = min (keyCmp a b) (keyCmp b c) :=
    (itKeyControl levels).chain a b c (show keyCmp a b ≤ 0 by omega) (show keyCmp b c ≤ 0 by omega)
  constructor <;> omega

theorem Stands.mono {low high : Int} {a b : LevelKey levels} (stands : Stands low a b)
    (le : low ≤ high) : Stands high a b := ⟨stands.1, stands.2.trans le⟩

theorem skip_past {cmpBorder : Int} {top : LevelKey levels} {rest : List (LevelKey levels)} :
    skip (some cmpBorder) top rest = rest.dropWhile fun buf =>
      decide (keyCmp buf top ≤ cmpBorder) := by
  induction rest with
  | nil => rfl
  | cons buf rest induction =>
    rcases Classical.em (keyCmp buf top ≤ cmpBorder) with within | beyond
    · have read : readPast cmpBorder top (buf :: rest) = readPast cmpBorder top rest :=
        if_neg (not_lt.mpr within)
      rw [dropWhile_cons, if_pos (decide_eq_true within), ← induction, skip, skip, readNext,
        read]
    · have read : readPast cmpBorder top (buf :: rest) = some (buf, rest) :=
        if_pos (not_le.mp beyond)
      rw [dropWhile_cons, if_neg (by rw [decide_eq_true_iff]; exact beyond), skip, readNext,
        read]

theorem skip_none (top : LevelKey levels) (rest : List (LevelKey levels)) :
    skip none top rest = rest := by
  cases rest <;> rfl

theorem skip_suffixes (border : Option Int) :
    Merging.Suffixes (skip border : LevelKey levels → _ → _) := by
  intro top rest
  cases border with
  | none => rw [skip_none]
  | some cmpBorder =>
    rw [skip_past]
    exact dropWhile_sublist _

theorem stands_of_skipped {border : Option Int} (top : LevelKey levels)
    (rest : List (LevelKey levels)) (key : LevelKey levels) (order : Ascending keyCmp (top :: rest))
    (mem : key ∈ rest) (gone : key ∉ skip border top rest) : Stands (border.getD 0) top key := by
  have le : keyCmp top key ≤ 0 := rel_of_pairwise_cons order mem
  have swap : keyCmp key top = -keyCmp top key := (itKeyControl levels).swap top key
  cases border with
  | none =>
    rw [skip_none] at gone
    exact absurd mem gone
  | some cmpBorder =>
    rw [skip_past] at gone
    have split := takeWhile_append_dropWhile
      (p := fun buf => decide (keyCmp buf top ≤ cmpBorder)) (l := rest)
    rw [← split] at mem
    rcases mem_append.mp mem with front | back
    · have within : keyCmp key top ≤ cmpBorder :=
        of_decide_eq_true (mem_takeWhile_imp
          (p := fun buf => decide (keyCmp buf top ≤ cmpBorder)) front)
      exact ⟨by omega, within⟩
    · exact absurd back gone

/-- The keys of `source` in order, each of them there or before it one that stands for it. -/
structure IsUnion (border : Int) (source : LevelKey levels → Prop) (keys : List (LevelKey levels)) :
    Prop where
  ascending : Ascending keyCmp keys
  only : ∀ key ∈ keys, source key
  covers : ∀ key, source key → ∃ k ∈ keys, Stands border k key

theorem merge_union (border : Option Int) (nonneg : 0 ≤ border.getD 0)
    {lists : List (List (LevelKey levels))} (ascending : ∀ l ∈ lists, Ascending keyCmp l) :
    ∃ out, merge border lists = some out ∧
      IsUnion (border.getD 0) (fun key => ∃ l ∈ lists, key ∈ l) out := by
  obtain ⟨out, eq, merging⟩ := merge_merging (skip_suffixes border) lists
  have order : ∀ i, Ascending keyCmp (lists.getD i []) := by
    intro i
    rcases Nat.lt_or_ge i lists.length with low | high
    · rw [getD_eq_getElem _ _ low]
      exact ascending _ (getElem_mem low)
    · rw [getD_eq_default _ _ high]
      exact List.Pairwise.nil
  refine ⟨out, eq, merging.ascending keyCmp_comparator (skip_suffixes border) order,
    fun key mem => ?_, ?_⟩
  · obtain ⟨i, mem⟩ := merging.mem (skip_suffixes border) mem
    rcases Nat.lt_or_ge i lists.length with low | high
    · rw [getD_eq_getElem _ _ low] at mem
      exact ⟨_, getElem_mem low, mem⟩
    · rw [getD_eq_default _ _ high] at mem
      cases mem
  · rintro key ⟨l, inLists, mem⟩
    obtain ⟨i, low, rfl⟩ := mem_iff_getElem.mp inLists
    rw [← getD_eq_getElem _ [] low] at mem
    exact merging.covers (skip_suffixes border) (stands_refl nonneg) stands_of_skipped order mem

theorem IsUnion.congr {border : Int} {source source' : LevelKey levels → Prop}
    {keys : List (LevelKey levels)} (union : IsUnion border source keys)
    (same : ∀ key, source key ↔ source' key) : IsUnion border source' keys where
  ascending := union.ascending
  only key mem := (same key).mp (union.only key mem)
  covers key mem := union.covers key ((same key).mpr mem)

theorem mem_chunks {chunk : Nat × Nat} (mem : chunk ∈ chunks iAdd high fuel i) :
    i ≤ chunk.1 ∧ chunk.1 ≤ chunk.2 ∧ chunk.2 ≤ high ∧ chunk.2 - chunk.1 ≤ iAdd := by
  induction fuel generalizing i with
  | zero => cases mem
  | succ fuel induction =>
    rw [chunks] at mem
    split at mem
    case isTrue low =>
      rcases mem_cons.mp mem with rfl | mem
      · dsimp only
        split <;> omega
      · have rest := induction mem
        omega
    case isFalse => cases mem

theorem exists_chunk {place : Nat} (some : 0 < iAdd) (enough : high - i ≤ fuel)
    (low : i ≤ place) (below : place < high) :
    ∃ chunk ∈ chunks iAdd high fuel i, chunk.1 ≤ place ∧ place < chunk.2 := by
  induction fuel generalizing i with
  | zero => omega
  | succ fuel induction =>
    rw [chunks, if_pos (low.trans_lt below)]
    rcases Nat.lt_or_ge place (i + iAdd) with first | later
    · refine ⟨_, mem_cons_self .., low, ?_⟩
      dsimp only
      split <;> omega
    · obtain ⟨chunk, mem, within⟩ := induction (by omega) later
      exact ⟨chunk, .tail _ mem, within⟩

theorem exists_mapM {α β : Type} {f : α → Option β} {good : α → β → Prop} {l : List α}
    (each : ∀ a ∈ l, ∃ b, f a = some b ∧ good a b) :
    ∃ bs, l.mapM f = some bs ∧ List.Forall₂ good l bs := by
  induction l with
  | nil => exact ⟨[], rfl, List.Forall₂.nil⟩
  | cons a l induction =>
    obtain ⟨b, eq, holds⟩ := each a (mem_cons_self ..)
    obtain ⟨bs, rest, all⟩ := induction fun a mem => each a (.tail _ mem)
    refine ⟨b :: bs, ?_, List.Forall₂.cons holds all⟩
    rw [mapM_cons, eq, rest]
    rfl

theorem forall₂_left {α β : Type} {good : α → β → Prop} {l : List α} {bs : List β}
    (all : List.Forall₂ good l bs) {a : α} (mem : a ∈ l) : ∃ b ∈ bs, good a b := by
  induction all with
  | nil => cases mem
  | cons first _ induction =>
    rcases mem_cons.mp mem with rfl | mem
    · exact ⟨_, mem_cons_self .., first⟩
    · obtain ⟨b, there, holds⟩ := induction mem
      exact ⟨b, .tail _ there, holds⟩

/-- How far behind a key those are that it may stand for: nothing where positions are preserved. -/
def border (isam : Isam levels) (preservePosition : Bool) : Int :=
  match preservePosition, isam.type with
  | true, .isamc => 0
  | true, .isamb => 0
  | _, _ => 1

/-- The keys of the lists from `low` to `high`. -/
def Listed (isam : Isam levels) (isamP : Nat → Nat) (low high : Nat) (key : LevelKey levels) :
    Prop :=
  ∃ i, low ≤ i ∧ i < high ∧ key ∈ isam.postings (isamP i)

theorem truncLeaf_union (isam : Isam levels) (isamP : Nat → Nat) (preservePosition : Bool)
    (low high : Nat) :
    ∃ keys, truncLeaf isam isamP preservePosition low high = some keys ∧
      IsUnion (border isam preservePosition) (Listed isam isamP low high) keys := by
  have ascending : ∀ l ∈ (List.range (high - low)).map fun i => isam.postings (isamP (low + i)),
      Ascending keyCmp l := by
    intro l mem
    obtain ⟨i, _, rfl⟩ := mem_map.mp mem
    exact isam.ascending _
  have listed : ∀ key, (∃ l ∈ (List.range (high - low)).map fun i =>
      isam.postings (isamP (low + i)), key ∈ l) ↔ Listed isam isamP low high key := by
    intro key
    constructor
    · rintro ⟨l, mem, inList⟩
      obtain ⟨i, inRange, rfl⟩ := mem_map.mp mem
      have few := mem_range.mp inRange
      exact ⟨low + i, Nat.le_add_right low i, by omega, inList⟩
    · rintro ⟨i, le, less, inList⟩
      refine ⟨isam.postings (isamP (low + (i - low))), mem_map_of_mem ?_, ?_⟩
      · exact mem_range.mpr (by omega)
      · rwa [Nat.add_sub_cancel' le]
  have one : ∀ b, b = 0 ∨ b = 1 → ∀ cmpBorder : Option Int, cmpBorder.getD 0 = b →
      ∃ keys, merge cmpBorder ((List.range (high - low)).map fun i =>
        isam.postings (isamP (low + i))) = some keys ∧
          IsUnion b (Listed isam isamP low high) keys := by
    intro b bit cmpBorder eq
    obtain ⟨keys, merged, union⟩ := merge_union cmpBorder (by omega) ascending
    rw [eq] at union
    exact ⟨keys, merged, union.congr listed⟩
  unfold truncLeaf border
  cases isam.type <;> cases preservePosition <;> dsimp only
  · exact one 1 (.inr rfl) (some 1) rfl
  · exact one 0 (.inl rfl) none rfl
  · exact one 1 (.inr rfl) (some 1) rfl
  · exact one 1 (.inr rfl) (some 1) rfl
  · exact one 1 (.inr rfl) (some 1) rfl
  · exact one 0 (.inl rfl) none rfl

theorem border_cases (isam : Isam levels) (preservePosition : Bool) :
    (if preservePosition then (0 : Int) else 1) ≤ border isam preservePosition ∧
      0 ≤ border isam preservePosition ∧ border isam preservePosition ≤ 1 := by
  unfold border
  cases isam.type <;> cases preservePosition <;> decide

/-- Merging sets that have merged the chunks is merging all lists. -/
theorem IsUnion.chunked {isam : Isam levels} {isamP : Nat → Nat} {low : Nat}
    {b cmpBorder : Int} (le : cmpBorder ≤ b) (some : 0 < iAdd) (enough : high - low ≤ fuel)
    {sets : List (List (LevelKey levels))} {keys : List (LevelKey levels)}
    (parts : List.Forall₂ (fun chunk set => IsUnion b (Listed isam isamP chunk.1 chunk.2) set)
      (chunks iAdd high fuel low) sets)
    (union : IsUnion cmpBorder (fun key => ∃ set ∈ sets, key ∈ set) keys) :
    IsUnion b (Listed isam isamP low high) keys where
  ascending := union.ascending
  only key mem := by
    obtain ⟨set, inSets, inSet⟩ := union.only key mem
    obtain ⟨chunk, inChunks, part⟩ := forall₂_left parts.flip inSets
    obtain ⟨i, above, below, inList⟩ := part.only key inSet
    have within := mem_chunks inChunks
    exact ⟨i, within.1.trans above, below.trans_le within.2.2.1, inList⟩
  covers key listed := by
    obtain ⟨i, above, below, inList⟩ := listed
    obtain ⟨chunk, inChunks, first, last⟩ := exists_chunk some enough above below
    obtain ⟨set, inSets, part⟩ := forall₂_left parts inChunks
    obtain ⟨middle, inSet, stands⟩ := part.covers key ⟨i, first, last, inList⟩
    obtain ⟨k, inKeys, stands'⟩ := union.covers middle ⟨set, inSets, inSet⟩
    exact ⟨k, inKeys, (stands'.mono le).trans stands⟩

theorem rsetTruncR_union (isam : Isam levels) (isamP : Nat → Nat) {mergeChunk : Nat}
    (chunky : 2 ≤ mergeChunk) (preservePosition : Bool) {low : Nat} (enough : high - low < fuel) :
    ∃ keys, rsetTruncR isam isamP mergeChunk preservePosition fuel low high = some keys ∧
      IsUnion (border isam preservePosition) (Listed isam isamP low high) keys := by
  induction fuel generalizing low high with
  | zero => cases enough
  | succ fuel induction =>
    rw [rsetTruncR]
    split
    case isFalse => exact truncLeaf_union isam isamP preservePosition low high
    case isTrue more =>
      dsimp only
      have smaller : (high - low) / mergeChunk + 1 < high - low := by
        have half : (high - low) / mergeChunk ≤ (high - low) / 2 :=
          Nat.div_le_div_left chunky (by decide)
        omega
      have each : ∀ chunk ∈ chunks ((high - low) / mergeChunk + 1) high (high - low) low,
          ∃ keys, rsetTruncR isam isamP mergeChunk preservePosition fuel chunk.1 chunk.2 =
            some keys ∧ IsUnion (border isam preservePosition)
              (Listed isam isamP chunk.1 chunk.2) keys := by
        intro chunk mem
        have within := mem_chunks mem
        exact induction (by omega)
      obtain ⟨sets, collected, parts⟩ := exists_mapM each
      obtain ⟨le, nonneg, _⟩ := border_cases isam preservePosition
      have ascending : ∀ set ∈ sets, Ascending keyCmp set := by
        intro set inSets
        obtain ⟨chunk, _, part⟩ := forall₂_left parts.flip inSets
        exact part.ascending
      obtain ⟨keys, merged, union⟩ := merge_union
        (some (if preservePosition then 0 else 1)) (by cases preservePosition <;> decide) ascending
      refine ⟨keys, ?_, IsUnion.chunked le (Nat.succ_pos _) le_rfl parts union⟩
      rw [collected]
      exact merged

theorem keyCmp_eq_zero {a b : LevelKey levels} : keyCmp a b = 0 ↔ a = b := by
  have same : a.val.length = b.val.length := a.property.trans b.property.symm
  rw [keyCmp, keyCompare, ← same, max_self, keyCompareFrom_eq_zero same]
  exact Subtype.ext_iff.symm

/-- However many lists there are and however they are merged: the result is in order, has no keys
but theirs, and for each key of a list one of the same record that is not behind it.  With
positions, in an index that keeps to that, it has exactly the keys of the lists. -/
theorem trunc_union (isam : Isam levels) (isamP : Nat → Nat) (no : Nat) {mergeChunk : Nat}
    (chunky : 2 ≤ mergeChunk) (preservePosition : Bool) :
    ∃ keys, rsetTruncR isam isamP mergeChunk preservePosition (no + 1) 0 no = some keys ∧
      Ascending keyCmp keys ∧
      (∀ key ∈ keys, ∃ i < no, key ∈ isam.postings (isamP i)) ∧
      (∀ i < no, ∀ key ∈ isam.postings (isamP i),
        ∃ k ∈ keys, keyCmp k key ≤ 0 ∧ (itKeyControl levels).Near k key) ∧
      (preservePosition = true → isam.type ≠ .isams →
        ∀ key, key ∈ keys ↔ ∃ i < no, key ∈ isam.postings (isamP i)) := by
  obtain ⟨keys, run, union⟩ :=
    rsetTruncR_union isam isamP chunky preservePosition (Nat.lt_succ_self (no - 0))
  have only : ∀ key ∈ keys, ∃ i < no, key ∈ isam.postings (isamP i) := by
    intro key mem
    obtain ⟨i, _, low, inList⟩ := union.only key mem
    exact ⟨i, low, inList⟩
  refine ⟨keys, run, union.ascending, only, fun i low key mem => ?_, fun yes type key => ?_⟩
  · obtain ⟨k, there, behind, within⟩ := union.covers key ⟨i, Nat.zero_le i, low, mem⟩
    have swap : keyCmp key k = -keyCmp k key := (itKeyControl levels).swap k key
    have bound := (border_cases isam preservePosition).2.2
    refine ⟨k, there, by omega, ?_, ?_⟩
    · change -2 < keyCmp k key
      omega
    · change keyCmp k key < 2
      omega
  · refine ⟨only key, fun ⟨i, low, mem⟩ => ?_⟩
    obtain ⟨k, there, behind, within⟩ := union.covers key ⟨i, Nat.zero_le i, low, mem⟩
    have exact : border isam preservePosition = 0 := by
      unfold border
      rw [yes]
      cases eq : isam.type with
      | isams => exact absurd eq type
      | isamc => rfl
      | isamb => rfl
    have same : key = k := keyCmp_eq_zero.mp (by omega)
    rwa [same]

/-- An index with two lists: a record with two positions, and another record. -/
def twoLists (type : IsamType) : Isam 2 where
  type
  postings
    | 1 => [⟨[4, 1], rfl⟩, ⟨[4, 2], rfl⟩]
    | 2 => [⟨[5, 1], rfl⟩]
    | _ => []
  empty := rfl
  ascending pos := by
    match pos with
    | 0 => exact List.Pairwise.nil
    | 1 => exact pairwise_pair.mpr (by decide)
    | 2 => exact pairwise_singleton _ _
    | _ + 3 => exact List.Pairwise.nil

theorem trunc_union_two :
    ∃ keys, rsetTruncR (twoLists .isamb) (· + 1) 20 true 3 0 2 = some keys ∧
      Ascending keyCmp keys ∧
      (∀ key ∈ keys, ∃ i < 2, key ∈ (twoLists .isamb).postings (i + 1)) ∧
      (∀ i < 2, ∀ key ∈ (twoLists .isamb).postings (i + 1),
        ∃ k ∈ keys, keyCmp k key ≤ 0 ∧ (itKeyControl 2).Near k key) ∧
      (true = true → (twoLists .isamb).type ≠ .isams →
        ∀ key, key ∈ keys ↔ ∃ i < 2, key ∈ (twoLists .isamb).postings (i + 1)) :=
  trunc_union (twoLists .isamb) (· + 1) 2 (by decide) true

/-- Without positions the second key of a record is left out. -/
theorem not_trunc_every_key :
    ¬ ∀ (isam : Isam 2) (isamP : Nat → Nat) (no mergeChunk : Nat) (preservePosition : Bool)
      (keys : List (LevelKey 2)), 1 ≤ no → 2 ≤ mergeChunk →
      rsetTruncR isam isamP mergeChunk preservePosition (no + 1) 0 no = some keys →
      ∀ key, key ∈ keys ↔ ∃ i < no, key ∈ isam.postings (isamP i) := by
  intro every
  have run : rsetTruncR (twoLists .isamb) (· + 1) 20 false 3 0 2 =
      some [⟨[4, 1], rfl⟩, ⟨[5, 1], rfl⟩] := by decide
  have there := (every _ _ 2 20 false _ (by decide) (by decide) run ⟨[4, 2], rfl⟩).mpr
    ⟨0, by decide, .tail _ (mem_cons_self ..)⟩
  revert there
  decide

end Zebra.Trunc
