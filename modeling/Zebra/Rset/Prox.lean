import Mathlib.Data.List.Chain
import Mathlib.Data.List.TakeWhile
import Mathlib.Algebra.Order.Ring.Int

/-!
# Proximity

`rsprox.c`.  With the ordered flag and without exclusion the reader has one key of each child and
goes forward in one child at a time, until all keys are near to their neighbours.  For the relations
that a key only loses as later keys come this misses nothing; for "equal" a key is given up when its
neighbour is still too near, although a later neighbour may be at the distance.
-/

namespace Zebra.Rset.Prox

open List

structure Key where
  record : Int
  seq : Int
  deriving DecidableEq

/-- `key_compare` -/
def cmp (p q : Key) : Int :=
  if p.record ≠ q.record then (if q.record < p.record then 2 else -2)
  else if p.seq ≠ q.seq then (if q.seq < p.seq then 1 else -1)
  else 0

/-- The scope of the result sets: keys that differ in the second level are of one record. -/
def scope : Int := 2

/-- `struct rset_prox_info`; the relations are 1 `<`, 2 `<=`, 3 `=`, 4 `>=`, 5 `>` and 6 `!=`. -/
structure ProxInfo where
  ordered : Bool
  exclusion : Bool
  relation : Nat
  distance : Int

/-- `rset_forward`, as `rset_default_forward` says what it does: it reads until a key is not a whole
record behind.  A child is what it has still to give, with the key that has been read. -/
def rsetForward (child : List Key) (untilbuf : Key) : List Key :=
  child.tail.dropWhile fun buf => scope ≤ cmp untilbuf buf

/-- The relations that are tested within a record when all operands are in order. -/
def inRelation (info : ProxInfo) (diff : Int) : Bool :=
  (info.relation = 3 ∧ diff = info.distance) ∨ (info.relation = 2 ∧ diff ≤ info.distance) ∨
    (info.relation = 1 ∧ diff < info.distance)

inductive Round where
  | hit (buf : Key) (children : List (List Key))
  /-- A child has no key. -/
  | eof
  | forward (children : List (List Key))

/-- The round of the child that comes before those of a round. -/
def Round.after (child : List Key) : Round → Round
  | .hit buf children => .hit buf (child :: children)
  | .eof => .eof
  | .forward children => .forward (child :: children)

/-- A round of the loop, from a pair of neighbours to the next. -/
def round (info : ProxInfo) : List (List Key) → Round
  | [] => .eof
  | [[]] => .eof
  | [buf :: more] => .hit buf [more]
  | [] :: _ :: _ => .eof
  | _ :: [] :: _ => .eof
  | (previous :: earlier) :: (buf :: more) :: rest =>
    if scope ≤ cmp buf previous then
      .forward (rsetForward (previous :: earlier) buf :: (buf :: more) :: rest)
    else if 0 < cmp buf previous then
      if inRelation info (buf.seq - previous.seq) then
        (round info ((buf :: more) :: rest)).after (previous :: earlier)
      else .forward (earlier :: (buf :: more) :: rest)
    else .forward ((previous :: earlier) :: rsetForward (buf :: more) previous :: rest)

def allLoop (info : ProxInfo) : Nat → List (List Key) → Option (Option Key × List (List Key))
  | 0, _ => none
  | fuel + 1, children =>
    match round info children with
    | .hit buf children => some (some buf, children)
    | .eof => some (none, children)
    | .forward children => allLoop info fuel children

/-- Whether a difference is in the relation and not negative. -/
def inRange (info : ProxInfo) (diff : Int) : Bool :=
  0 ≤ diff ∧
    (info.relation = 1 ∧ diff < info.distance ∨ info.relation = 2 ∧ diff ≤ info.distance ∨
      info.relation = 3 ∧ diff = info.distance ∨ info.relation = 4 ∧ info.distance ≤ diff ∨
      info.relation = 5 ∧ info.distance < diff ∨ info.relation = 6 ∧ diff ≠ info.distance)

/-- Whether a position of the left operand makes the key of the right one a hit. -/
def excl (info : ProxInfo) (seqno : List Int) (buf : Key) : Bool :=
  seqno.any fun left =>
    let diff := buf.seq - left
    let diff := if !info.ordered && diff < 0 then -diff else diff
    info.exclusion != inRange info diff

def sameRecord (p q : Key) : Bool := -scope < cmp p q ∧ cmp p q < scope

/-- The keys of the right operand in the record of `buf`: whether one is a hit, and those that are
left then. -/
def rightLoop (info : ProxInfo) (seqno : List Int) (buf : Key) : List Key → Bool × List Key
  | [] => (false, [])
  | key :: more =>
    if excl info seqno key then (true, more)
    else if more.head?.any (sameRecord buf) then rightLoop info seqno buf more
    else (false, more)

def pairLoop (info : ProxInfo) : Nat → List (List Key) → Option (Option Key × List (List Key))
  | 0, _ => none
  | fuel + 1, [left :: earlier, buf :: more] =>
    if cmp left buf ≤ -scope then
      pairLoop info fuel [rsetForward (left :: earlier) buf, buf :: more]
    else if scope ≤ cmp left buf then
      pairLoop info fuel [left :: earlier, rsetForward (buf :: more) left]
    else
      -- only as many positions as the array has are kept
      let seqno := ((left :: earlier.takeWhile (sameRecord · buf)).map (·.seq)).take 500
      let earlier := earlier.dropWhile (sameRecord · buf)
      match rightLoop info seqno buf (buf :: more) with
      | (true, more) => some (some buf, [earlier, more])
      | (false, more) => pairLoop info fuel [earlier, more]
  | _ + 1, children => some (none, children)

def rRead (info : ProxInfo) (fuel : Nat) (children : List (List Key)) :
    Option (Option Key × List (List Key)) :=
  if info.ordered ∧ info.relation ≤ 3 ∧ info.exclusion = false then allLoop info fuel children
  else pairLoop info fuel children

def readAll (info : ProxInfo) : Nat → List (List Key) → Option (List Key)
  | 0, _ => none
  | fuel + 1, children =>
    match rRead info (fuel + 1) children with
    | none => none
    | some (none, _) => some []
    | some (some buf, children) => (readAll info fuel children).map (buf :: ·)

/-- Whether two keys are in one record, in order and in the relation. -/
def near (info : ProxInfo) (previous buf : Key) : Bool :=
  previous.record = buf.record ∧ previous.seq < buf.seq ∧
    inRelation info (buf.seq - previous.seq)

/-- Keys of the children, each near to the next, to a key of the last child. -/
structure Chain (info : ProxInfo) (children : List (List Key)) (k : Key) (keys : List Key) :
    Prop where
  each : List.Forall₂ (· ∈ ·) keys children
  near : keys.IsChain fun previous buf => near info previous buf
  last : keys.getLast? = some k

open scoped Classical in
/-- The keys of the last child that a chain of keys comes to. -/
noncomputable def hits (info : ProxInfo) (children : List (List Key)) : List Key :=
  (children.getLast?.getD []).filter fun k => ∃ keys, Chain info children k keys

def Before (p q : Key) : Prop := p.record < q.record ∨ p.record = q.record ∧ p.seq ≤ q.seq

def Sorted (children : List (List Key)) : Prop := ∀ child ∈ children, child.Pairwise Before

/-- The children have keys that make a chain behind `previous`. -/
def Continues (info : ProxInfo) (previous : Key) (children : List (List Key)) : Prop :=
  ∃ keys, List.Forall₂ (· ∈ ·) keys children ∧
    (previous :: keys).IsChain fun previous buf => near info previous buf

/-- A round of the loop gives a key up, since its neighbour is in no relation to it, that has still
a chain behind it. -/
def Loses (info : ProxInfo) : List (List Key) → Prop
  | (previous :: _) :: (buf :: more) :: rest =>
    if near info previous buf then Loses info ((buf :: more) :: rest)
    else previous.record = buf.record ∧ previous.seq < buf.seq ∧
      Continues info previous ((buf :: more) :: rest)
  | _ => False

/-- From some children, the rounds of the reads come to others. -/
inductive Reached (info : ProxInfo) : List (List Key) → List (List Key) → Prop
  | here {children : List (List Key)} : Reached info children children
  | forward {children later last : List (List Key)} :
      round info children = .forward later → Reached info later last → Reached info children last
  | hit {children later last : List (List Key)} {buf : Key} :
      round info children = .hit buf later → Reached info later last → Reached info children last

/-- No round of the reads gives up a key that has still a chain behind it. -/
def LosesNone (info : ProxInfo) (children : List (List Key)) : Prop :=
  ∀ last, Reached info children last → ¬ Loses info last

theorem le_cmp_iff {p q : Key} : scope ≤ cmp p q ↔ q.record < p.record := by
  rw [cmp, scope]
  split
  · split <;> omega
  · split
    · split <;> omega
    · omega

theorem cmp_pos_iff {p q : Key} :
    0 < cmp p q ↔ q.record < p.record ∨ p.record = q.record ∧ q.seq < p.seq := by
  rw [cmp]
  split
  · split <;> omega
  · split
    · split <;> omega
    · omega

theorem near_iff {info : ProxInfo} {p q : Key} :
    near info p q = true ↔
      p.record = q.record ∧ p.seq < q.seq ∧ inRelation info (q.seq - p.seq) = true := by
  simp [near]

/-- A difference that is in no relation stays out of it as it grows. -/
theorem inRelation_mono {info : ProxInfo} {diff larger : Int} (le : diff ≤ larger)
    (outside : inRelation info diff = false)
    (exact : info.relation = 3 → info.distance ≤ diff) : inRelation info larger = false := by
  simp only [inRelation, decide_eq_false_iff_not] at outside ⊢
  rintro (⟨is, same⟩ | ⟨is, below⟩ | ⟨is, below⟩)
  · exact outside (.inl ⟨is, by have := exact is; omega⟩)
  · exact outside (.inr (.inl ⟨is, by omega⟩))
  · exact outside (.inr (.inr ⟨is, by omega⟩))

/-- The keys of the last child that are reached from keys of the first child with `p`. -/
def reached (info : ProxInfo) : (Key → Bool) → List (List Key) → List Key
  | _, [] => []
  | p, [last] => last.filter p
  | p, child :: next :: rest =>
    reached info (fun buf => child.any fun previous => p previous && near info previous buf)
      (next :: rest)

variable {info : ProxInfo} {p q : Key → Bool}
variable {child dropped : List Key}

theorem reached_congr (rest : List (List Key))
    (same : ∀ k ∈ child, p k = q k) :
      reached info p (child :: rest) = reached info q (child :: rest) := by
  cases rest with
  | nil => exact filter_congr same
  | cons next rest =>
    rw [reached, reached]
    congr 1
    funext buf
    rw [Bool.eq_iff_iff, any_eq_true, any_eq_true]
    exact exists_congr fun previous => and_congr_right fun member => by rw [same previous member]

/-- Keys of the first child without `p` do not count. -/
theorem reached_append (child : List Key) (rest : List (List Key))
    (without : ∀ k ∈ dropped, p k = false) :
    reached info p ((dropped ++ child) :: rest) = reached info p (child :: rest) := by
  cases rest with
  | nil =>
    rw [reached, reached, filter_append,
      filter_eq_nil_iff.mpr fun k member => by simp [without k member], nil_append]
  | cons next rest =>
    rw [reached, reached]
    congr 1
    funext buf
    rw [any_append, Bool.or_eq_right_iff_imp]
    intro some
    obtain ⟨k, member, both⟩ := any_eq_true.mp some
    simp [without k member] at both

theorem reached_nil (rest : List (List Key)) : reached info p ([] :: rest) = [] := by
  induction rest generalizing p with
  | nil => rfl
  | cons next rest ih =>
    rw [reached]
    have none : reached info (fun _ => false) ((next ++ []) :: rest) =
        reached info (fun _ => false) ([] :: rest) :=
      reached_append [] rest fun _ _ => rfl
    rw [append_nil] at none
    exact none.trans ih

/-- Keys of the first child that are near to none of the next do not count. -/
theorem reached_append_far (child next : List Key) (rest : List (List Key))
    (far : ∀ previous ∈ dropped, ∀ buf ∈ next, near info previous buf = false) :
    reached info p ((dropped ++ child) :: next :: rest) = reached info p
      (child :: next :: rest) := by
  rw [reached, reached]
  refine reached_congr rest fun buf member => ?_
  rw [any_append, Bool.or_eq_right_iff_imp]
  intro some
  obtain ⟨previous, at_, both⟩ := any_eq_true.mp some
  simp [far previous at_ buf member] at both

/-- Keys of the second child to which none of the first is near do not count. -/
theorem reached_append_unreached (child next : List Key) (rest : List (List Key))
    (far : ∀ previous ∈ child, ∀ buf ∈ dropped, near info previous buf = false) :
    reached info p (child :: (dropped ++ next) :: rest) = reached info p
      (child :: next :: rest) := by
  rw [reached, reached]
  refine reached_append next rest fun buf member => ?_
  rw [any_eq_false]
  intro previous at_
  simp [far previous at_ buf member]

def Later (children earlier : List (List Key)) : Prop :=
  List.Forall₂ (· <:+ ·) children earlier

theorem Later.refl (children : List (List Key)) : Later children children :=
  List.forall₂_same.mpr fun child _ => suffix_refl child

theorem Later.trans {a b c : List (List Key)} (first : Later a b) (second : Later b c) :
    Later a c := by
  induction first generalizing c with
  | nil => exact second
  | cons suffix _ ih =>
    cases second with
    | cons suffix' rest => exact .cons (suffix.trans suffix') (ih rest)

theorem Later.sorted {children earlier : List (List Key)} (later : Later children earlier)
    (sorted : Sorted earlier) : Sorted children := by
  induction later with
  | nil => exact sorted
  | cons suffix _ ih =>
    obtain ⟨head, rest⟩ := forall_mem_cons.mp sorted
    exact forall_mem_cons.mpr ⟨head.sublist suffix.sublist, ih rest⟩

def left (children : List (List Key)) : Nat := (children.map List.length).sum

/-- What a round of the loop must do to the keys that are reached. -/
def Round.Keeps (info : ProxInfo) (p : Key → Bool) (children : List (List Key)) : Round → Prop
  | .hit buf later => reached info p children = buf :: reached info p later ∧
      Later later children ∧ left later < left children
  | .eof => reached info p children = []
  | .forward later => reached info p children = reached info p later ∧
      Later later children ∧ left later < left children

/-- The keys that a child gives up when it goes forward. -/
theorem exists_rsetForward (previous : Key) (earlier : List Key) (buf : Key) :
    ∃ behind, previous :: earlier = (previous :: behind) ++ rsetForward (previous :: earlier) buf ∧
      ∀ key ∈ behind, key.record < buf.record := by
  let skip := fun key => decide (scope ≤ cmp buf key)
  refine ⟨earlier.takeWhile skip, ?_, fun key member => ?_⟩
  · rw [cons_append, rsetForward, tail_cons]
    exact congrArg (previous :: ·) takeWhile_append_dropWhile.symm
  · exact le_cmp_iff.mp (of_decide_eq_true (mem_takeWhile_imp (p := skip) member))

/-- Children that have lost the first keys of one child. -/
theorem Later.head (rest : List (List Key)) : Later (child :: rest) ((dropped ++ child) :: rest) :=
  .cons (suffix_append dropped child) (Later.refl rest)

theorem Before.record_le {p q : Key} (before : Before p q) : p.record ≤ q.record :=
  before.elim le_of_lt fun same => same.1.le

variable {rest : List (List Key)} {earlier more : List Key}
variable {previous buf : Key}

/-- A child that is behind gives up keys that are near to none of the next child. -/
theorem keeps_record
    (sorted : (buf :: more).Pairwise Before) (behind : previous.record < buf.record) :
    (Round.forward (rsetForward (previous :: earlier) buf :: (buf :: more) :: rest)).Keeps info p
      ((previous :: earlier) :: (buf :: more) :: rest) := by
  obtain ⟨dropped, split, records⟩ := exists_rsetForward previous earlier buf
  have far : ∀ k ∈ previous :: dropped, ∀ other ∈ buf :: more, near info k other = false := by
    intro k member other at_
    have lower : k.record < buf.record := by
      obtain rfl | member := mem_cons.mp member
      · exact behind
      · exact records k member
    have upper : buf.record ≤ other.record := by
      obtain rfl | at_ := mem_cons.mp at_
      · exact le_rfl
      · exact (rel_of_pairwise_cons sorted at_).record_le
    refine Bool.eq_false_iff.mpr fun is => ?_
    have := (near_iff.mp is).1
    omega
  refine ⟨?_, ?_, ?_⟩
  · conv_lhs => rw [split]
    exact reached_append_far _ _ rest far
  · conv_rhs => rw [split]
    exact .head _
  · have lengths := congrArg List.length split
    simp only [length_append, length_cons] at lengths
    simp only [left, map_cons, sum_cons, length_cons]
    omega

/-- Keys that are not after those of the child before them are not reached. -/
theorem keeps_order (sorted : (previous :: earlier).Pairwise Before)
    (order : buf.record < previous.record ∨ buf.record = previous.record ∧ buf.seq ≤ previous.seq) :
    (Round.forward ((previous :: earlier) :: rsetForward (buf :: more) previous :: rest)).Keeps
      info p
      ((previous :: earlier) :: (buf :: more) :: rest) := by
  obtain ⟨dropped, split, records⟩ := exists_rsetForward buf more previous
  have far : ∀ k ∈ previous :: earlier, ∀ other ∈ buf :: dropped, near info k other = false := by
    intro k member other at_
    refine Bool.eq_false_iff.mpr fun is => ?_
    obtain ⟨equal, less, -⟩ := near_iff.mp is
    have first : Before previous k := by
      obtain rfl | member := mem_cons.mp member
      · exact .inr ⟨rfl, le_rfl⟩
      · exact rel_of_pairwise_cons sorted member
    obtain rfl | at_ := mem_cons.mp at_
    · obtain first | ⟨_, first⟩ := first
      · omega
      · omega
    · have := records other at_
      have := first.record_le
      omega
  refine ⟨?_, ?_, ?_⟩
  · conv_lhs => rw [split]
    exact reached_append_unreached _ _ rest far
  · conv_rhs => rw [split]
    exact .cons (suffix_refl _) (Later.head _)
  · have lengths := congrArg List.length split
    simp only [length_append, length_cons] at lengths
    simp only [left, map_cons, sum_cons, length_cons]
    omega

theorem Round.Keeps.after {next : List Key} {r : Round}
    (keeps : r.Keeps info
      (fun buf => child.any fun previous => p previous && near info previous buf) (next :: rest)) :
    (r.after child).Keeps info p (child :: next :: rest) := by
  cases r with
  | eof => exact keeps
  | hit buf children =>
    obtain ⟨same, later, less⟩ := keeps
    cases later with
    | cons suffix rest' =>
      refine ⟨same, .cons (suffix_refl _) (.cons suffix rest'), ?_⟩
      simp only [left, map_cons, sum_cons] at less ⊢
      omega
  | forward children =>
    obtain ⟨same, later, less⟩ := keeps
    cases later with
    | cons suffix rest' =>
      refine ⟨same, .cons (suffix_refl _) (.cons suffix rest'), ?_⟩
      simp only [left, map_cons, sum_cons] at less ⊢
      omega

theorem Sorted.tail {child : List Key} {rest : List (List Key)} (sorted : Sorted (child :: rest)) :
    Sorted rest :=
  fun other member => sorted other (mem_cons_of_mem _ member)

theorem exists_chain_singleton {k : Key} (member : k ∈ child) :
    (∃ keys, Chain info [child] k keys ∧ ∀ first ∈ keys.head?, p first = true) ↔ p k = true := by
  constructor
  · rintro ⟨keys, ⟨each, -, last⟩, starts⟩
    cases each with
    | cons _ each =>
      cases each
      obtain rfl := Option.some.inj last
      exact starts _ rfl
  · intro holds
    refine ⟨[k], ⟨.cons member .nil, .singleton k, rfl⟩, ?_⟩
    rintro first ⟨⟩
    exact holds

open scoped Classical in
/-- The keys that are reached are those that a chain comes to. -/
theorem reached_eq_filter (child : List Key) (rest : List (List Key)) :
    reached info p (child :: rest) = ((child :: rest).getLast?.getD []).filter fun k =>
      ∃ keys, Chain info (child :: rest) k keys ∧ ∀ first ∈ keys.head?, p first = true := by
  induction rest generalizing p child with
  | nil =>
    refine filter_congr fun k member => ?_
    rw [Bool.eq_iff_iff, decide_eq_true_iff, exists_chain_singleton member]
  | cons next rest ih =>
    rw [reached, ih, List.getLast?_cons_cons]
    refine filter_congr fun k _ => decide_eq_decide.mpr ⟨?_, ?_⟩
    · rintro ⟨keys, ⟨each, near, last⟩, starts⟩
      cases each with
      | @cons b _ keys _ at_ each =>
        obtain ⟨previous, member, both⟩ := any_eq_true.mp (starts b rfl)
        rw [Bool.and_eq_true] at both
        refine ⟨previous :: b :: keys, ⟨.cons member (.cons at_ each),
          isChain_cons_cons.mpr ⟨both.2, near⟩, last⟩, ?_⟩
        rintro first ⟨⟩
        exact both.1
    · rintro ⟨keys, ⟨each, near, last⟩, starts⟩
      cases each with
      | @cons previous _ keys _ member each =>
        cases each with
        | @cons b _ keys _ at_ each =>
          obtain ⟨first, near⟩ := isChain_cons_cons.mp near
          refine ⟨b :: keys, ⟨.cons at_ each, near, last⟩, ?_⟩
          rintro _ ⟨⟩
          exact any_eq_true.mpr
            ⟨previous, member, Bool.and_eq_true_iff.mpr ⟨starts previous rfl, first⟩⟩

theorem reached_eq_hits (children : List (List Key)) :
    reached info (fun _ => true) children = hits info children := by
  cases children with
  | nil => rfl
  | cons child rest =>
    rw [reached_eq_filter, hits]
    refine filter_congr fun k _ => decide_eq_decide.mpr ?_
    exact exists_congr fun keys => and_iff_left fun _ _ => rfl

/-- Without a chain behind it, the first key of a child does not count. -/
theorem reached_read (stops : ¬ Continues info previous ((buf :: more) :: rest)) :
    reached info p ((previous :: earlier) :: (buf :: more) :: rest) =
      reached info p (earlier :: (buf :: more) :: rest) := by
  rw [reached_eq_filter, reached_eq_filter, List.getLast?_cons_cons, List.getLast?_cons_cons]
  refine filter_congr fun k _ => decide_eq_decide.mpr ⟨?_, ?_⟩
  · rintro ⟨keys, ⟨each, chain, last⟩, starts⟩
    cases each with
    | @cons first _ keys _ member each =>
      rcases mem_cons.mp member with rfl | member
      · exact absurd ⟨keys, each, chain⟩ stops
      · exact ⟨first :: keys, ⟨.cons member each, chain, last⟩, starts⟩
  · rintro ⟨keys, ⟨each, chain, last⟩, starts⟩
    cases each with
    | @cons first _ keys _ member each =>
      exact ⟨first :: keys, ⟨.cons (.tail _ member) each, chain, last⟩, starts⟩

theorem mem_reached {k : Key} {child : List Key} {rest : List (List Key)} :
    k ∈ reached info p (child :: rest) ↔ k ∈ (child :: rest).getLast?.getD [] ∧
      ∃ keys, Chain info (child :: rest) k keys ∧ ∀ first ∈ keys.head?, p first = true := by
  classical
  rw [reached_eq_filter, mem_filter, decide_eq_true_iff]

open scoped Classical in
theorem reached_sublist (child next : List Key) (rest : List (List Key)) :
    (reached info p (child :: next :: rest)).Sublist
      (reached info p ((previous :: child) :: next :: rest)) := by
  rw [reached_eq_filter, reached_eq_filter, List.getLast?_cons_cons, List.getLast?_cons_cons]
  refine List.monotone_filter_right _ fun k some => ?_
  rw [decide_eq_true_iff] at some ⊢
  obtain ⟨keys, ⟨each, chain, last⟩, starts⟩ := some
  cases each with
  | @cons first _ keys _ member each =>
    exact ⟨first :: keys, ⟨.cons (.tail _ member) each, chain, last⟩, starts⟩

/-- With the relation "equal" the last key of a chain says what the first one is. -/
theorem chain_last (equal : info.relation = 3) {keys : List Key} {k : Key}
    (chain : (previous :: keys).IsChain fun previous buf => near info previous buf)
    (last : (previous :: keys).getLast? = some k) :
    previous.record = k.record ∧ previous.seq + info.distance * keys.length = k.seq := by
  induction keys generalizing previous with
  | nil =>
    cases last
    exact ⟨rfl, by simp⟩
  | cons b keys ih =>
    obtain ⟨first, chain⟩ := isChain_cons_cons.mp chain
    rw [List.getLast?_cons_cons] at last
    obtain ⟨record, seq⟩ := ih chain last
    obtain ⟨same, -, within⟩ := near_iff.mp first
    have apart : b.seq - previous.seq = info.distance := by simpa [inRelation, equal] using within
    refine ⟨same.trans record, ?_⟩
    rw [length_cons, Nat.cast_succ, Int.mul_add, Int.mul_one]
    omega

/-- Only with the relation "equal" does a key have a chain behind it that is in no relation to the
first key of the next child, which is then too near. -/
theorem Continues.too_near (sorted : (buf :: more).Pairwise Before)
    (continues : Continues info previous ((buf :: more) :: rest))
    (same : previous.record = buf.record) (order : previous.seq < buf.seq)
    (outside : inRelation info (buf.seq - previous.seq) = false) :
    info.relation = 3 ∧ buf.seq - previous.seq < info.distance := by
  obtain ⟨keys, each, chain⟩ := continues
  cases each with
  | @cons other _ keys _ member each =>
    obtain ⟨equal, -, within⟩ := near_iff.mp (isChain_cons_cons.mp chain).1
    have later : buf.seq ≤ other.seq := by
      rcases mem_cons.mp member with rfl | member
      · exact le_rfl
      · rcases rel_of_pairwise_cons sorted member with less | ⟨-, le⟩
        · omega
        · exact le
    by_contra far
    have exact : info.relation = 3 → info.distance ≤ buf.seq - previous.seq := by
      intro is
      exact Int.not_lt.mp fun less => far ⟨is, less⟩
    rw [inRelation_mono (by omega) outside exact] at within
    exact Bool.false_ne_true within

/-- What a round does that gives up a key with a chain behind it: the keys still reached are fewer,
or the key is there once more, and is given up next. -/
structure Drops (info : ProxInfo) (p : Key → Bool) (children later : List (List Key)) : Prop where
  suffixes : Later later children
  less : left later < left children
  sublist : (reached info p later).Sublist (reached info p children)
  again : reached info p later = reached info p children →
    Loses info later ∧ later.head?.bind List.head? = children.head?.bind List.head?

theorem last_mem {keys : List Key} {children : List (List Key)} {k : Key}
    (each : List.Forall₂ (· ∈ ·) keys children) (last : keys.getLast? = some k) :
    k ∈ children.getLast?.getD [] := by
  induction each with
  | nil => cases last
  | cons member each ih =>
    cases each with
    | nil =>
      cases last
      exact member
    | cons member' each =>
      rw [List.getLast?_cons_cons] at last ⊢
      exact ih last

theorem drops_read (sorted : Sorted ((previous :: earlier) :: (buf :: more) :: rest))
    (holds : p previous = true) (same : previous.record = buf.record)
    (order : previous.seq < buf.seq) (outside : inRelation info (buf.seq - previous.seq) = false)
    (continues : Continues info previous ((buf :: more) :: rest)) :
    Drops info p ((previous :: earlier) :: (buf :: more) :: rest)
      (earlier :: (buf :: more) :: rest) := by
  refine ⟨.cons (suffix_cons previous earlier) (Later.refl _), by simp [left],
    reached_sublist _ _ _, fun all => ?_⟩
  obtain ⟨equal, -⟩ := continues.too_near (sorted _ (by simp)) same order outside
  obtain ⟨keys, each, chain⟩ := continues
  obtain ⟨k, last⟩ : ∃ k, (previous :: keys).getLast? = some k :=
    ⟨_, List.getLast?_eq_getLast_of_ne_nil (cons_ne_nil _ _)⟩
  have lastMem : k ∈ ((buf :: more) :: rest).getLast?.getD [] := by
    cases each with
    | cons member each =>
      rw [List.getLast?_cons_cons] at last
      exact last_mem (.cons member each) last
  have there : k ∈ reached info p ((previous :: earlier) :: (buf :: more) :: rest) := by
    rw [mem_reached, List.getLast?_cons_cons]
    refine ⟨lastMem, previous :: keys, ⟨.cons mem_cons_self each, chain, last⟩, ?_⟩
    rintro first ⟨⟩
    exact holds
  rw [← all] at there
  obtain ⟨-, keys', ⟨each', chain', last'⟩, -⟩ := mem_reached.mp there
  cases each' with
  | @cons first _ keys' _ member each' =>
    -- both chains have as many keys, so that they have the same first one
    have lengths : keys'.length = keys.length := each'.length_eq.trans each.length_eq.symm
    obtain ⟨record, seq⟩ := chain_last equal chain last
    obtain ⟨record', seq'⟩ := chain_last equal chain' last'
    rw [lengths] at seq'
    obtain rfl : first = previous := by
      obtain ⟨r, s⟩ := first
      obtain ⟨r', s'⟩ := previous
      simp only [Key.mk.injEq] at *
      omega
    cases earlier with
    | nil => exact absurd member not_mem_nil
    | cons head earlier =>
      have pairwise := sorted _ mem_cons_self
      have upper : Before first head := rel_of_pairwise_cons pairwise mem_cons_self
      have lower : head = first ∨ Before head first :=
        (mem_cons.mp member).imp Eq.symm fun member =>
          rel_of_pairwise_cons (pairwise_cons.mp pairwise).2 member
      obtain rfl : head = first := by
        rcases lower with same | lower
        · exact same
        · obtain ⟨r, s⟩ := first
          obtain ⟨r', s'⟩ := head
          simp only [Before, Key.mk.injEq] at *
          omega
      refine ⟨?_, rfl⟩
      rw [Loses, if_neg]
      · exact ⟨same, order, keys, each, chain⟩
      · rw [near_iff]
        exact fun is => Bool.false_ne_true (outside.symm.trans is.2.2)

/-- The keys in front of the child that a round goes forward in are related. -/
theorem Drops.after {later : List (List Key)} (related : near info previous buf = true)
    (drops : Drops info
      (fun buf => (previous :: earlier).any fun previous => p previous && near info previous buf)
      ((buf :: more) :: rest) later) :
    Drops info p ((previous :: earlier) :: (buf :: more) :: rest)
      ((previous :: earlier) :: later) := by
  obtain ⟨suffixes, less, sublist, again⟩ := drops
  cases suffixes with
  | @cons next _ rest' _ suffix suffixes =>
    refine ⟨.cons (suffix_refl _) (.cons suffix suffixes), ?_, sublist, fun all => ⟨?_, rfl⟩⟩
    · simp only [left, map_cons, sum_cons] at less ⊢
      omega
    · obtain ⟨loses, first⟩ := again all
      cases next with
      | nil => cases first
      | cons buf' more' =>
        cases first
        rw [Loses, if_pos related]
        exact loses

/-- A round keeps the keys that are reached, apart from the one that it gives, unless it gives one
up that has still a chain behind it. -/
theorem round_keeps (children : List (List Key)) (sorted : Sorted children)
    (starts : ∀ k ∈ children.head?.bind List.head?, p k = true) :
    (¬ Loses info children → (round info children).Keeps info p children) ∧
    (Loses info children → ∃ later, round info children = .forward later ∧
      Drops info p children later) := by
  induction children using round.induct info generalizing p with
  | case1 => exact ⟨fun _ => rfl, False.elim⟩
  | case2 => exact ⟨fun _ => reached_nil [], False.elim⟩
  | case3 buf more =>
    refine ⟨fun _ => ⟨?_, .cons (suffix_cons buf more) .nil, by simp [left]⟩, False.elim⟩
    exact filter_cons_of_pos (starts buf rfl)
  | case4 next rest => exact ⟨fun _ => reached_nil (next :: rest), False.elim⟩
  | case5 child rest =>
    cases child with
    | nil => exact ⟨fun _ => reached_nil ([] :: rest), False.elim⟩
    | cons => exact ⟨fun _ => reached_nil rest, False.elim⟩
  | case6 previous earlier buf more rest behind =>
    have less := le_cmp_iff.mp behind
    refine ⟨fun _ => ?_, fun loses => ?_⟩
    · rw [round, if_pos behind]
      exact keeps_record (sorted _ (by simp)) less
    · rw [Loses, if_neg fun near => by have := (near_iff.mp near).1; omega] at loses
      exact absurd loses.1 (by omega)
  | case7 previous earlier buf more rest level order related ih =>
    have same : previous.record = buf.record := by
      have := mt le_cmp_iff.mpr level
      have := cmp_pos_iff.mp order
      omega
    have less : previous.seq < buf.seq := by
      have := cmp_pos_iff.mp order
      omega
    have isNear := near_iff.mpr ⟨same, less, related⟩
    obtain ⟨keeps, drops⟩ := ih (p := fun buf => (previous :: earlier).any fun previous =>
      p previous && near info previous buf) sorted.tail (by
        rintro k ⟨⟩
        rw [any_cons, starts previous rfl, isNear]
        rfl)
    rw [round, if_neg level, if_pos order, if_pos related, Loses, if_pos isNear]
    refine ⟨fun none => (keeps none).after, fun loses => ?_⟩
    obtain ⟨later, is, drops⟩ := drops loses
    rw [is]
    exact ⟨_, rfl, drops.after isNear⟩
  | case8 previous earlier buf more rest level order related =>
    have same : previous.record = buf.record := by
      have := mt le_cmp_iff.mpr level
      have := cmp_pos_iff.mp order
      omega
    have less : previous.seq < buf.seq := by
      have := cmp_pos_iff.mp order
      omega
    have outside := Bool.eq_false_iff.mpr related
    have notNear : ¬ near info previous buf = true := fun near => related (near_iff.mp near).2.2
    rw [round, if_neg level, if_pos order, if_neg related, Loses, if_neg notNear]
    refine ⟨fun none => ?_, fun ⟨_, _, continues⟩ => ?_⟩
    · refine ⟨reached_read fun continues => none ⟨same, less, continues⟩,
        .cons (suffix_cons previous earlier) (Later.refl _), by simp [left]⟩
    · exact ⟨_, rfl, drops_read sorted (starts previous rfl) same less outside continues⟩
  | case9 previous earlier buf more rest level order =>
    have notLess := mt cmp_pos_iff.mpr order
    refine ⟨fun _ => ?_, fun loses => ?_⟩
    · rw [round, if_neg level, if_neg order]
      refine keeps_order (sorted _ (by simp)) ?_
      have := mt le_cmp_iff.mpr level
      omega
    · rw [Loses, if_neg fun near => by have := near_iff.mp near; omega] at loses
      obtain ⟨same, less, -⟩ := loses
      omega

variable {children : List (List Key)}

theorem losesNone_forward {later : List (List Key)} (is : round info children = .forward later) :
    LosesNone info children ↔ ¬ Loses info children ∧ LosesNone info later := by
  constructor
  · exact fun none => ⟨none children .here, fun last reached => none last (.forward is reached)⟩
  · rintro ⟨own, none⟩ last (_ | ⟨is', reached⟩ | ⟨is', reached⟩)
    · exact own
    · rw [is] at is'
      cases is'
      exact none last reached
    · rw [is] at is'
      cases is'

theorem losesNone_hit {later : List (List Key)} {buf : Key}
    (is : round info children = .hit buf later) :
    LosesNone info children ↔ ¬ Loses info children ∧ LosesNone info later := by
  constructor
  · exact fun none => ⟨none children .here, fun last reached => none last (.hit is reached)⟩
  · rintro ⟨own, none⟩ last (_ | ⟨is', reached⟩ | ⟨is', reached⟩)
    · exact own
    · rw [is] at is'
      cases is'
    · rw [is] at is'
      cases is'
      exact none last reached

theorem losesNone_eof (is : round info children = .eof) :
    LosesNone info children ↔ ¬ Loses info children := by
  constructor
  · exact fun none => none children .here
  · rintro own last (_ | ⟨is', reached⟩ | ⟨is', reached⟩)
    · exact own
    · rw [is] at is'
      cases is'
    · rw [is] at is'
      cases is'

/-- What a read gives: a part of the keys that are reached, which is all of them if and only if no
round gives up a key with a chain behind it. -/
def Reads (info : ProxInfo) (children : List (List Key)) : Option Key × List (List Key) → Prop
  | (none, _) => reached info (fun _ => true) children = [] ↔ LosesNone info children
  | (some buf, later) =>
    Later later children ∧ left later < left children ∧
      (buf :: reached info (fun _ => true) later).Sublist (reached info (fun _ => true) children) ∧
      (LosesNone info children ↔
        buf :: reached info (fun _ => true) later = reached info (fun _ => true) children ∧
          LosesNone info later)

theorem Reads.kept {later : List (List Key)} {r : Option Key × List (List Key)}
    (reads : Reads info later r) (suffixes : Later later children)
    (less : left later < left children)
    (same : reached info (fun _ => true) children = reached info (fun _ => true) later)
    (loses : LosesNone info children ↔ LosesNone info later) : Reads info children r := by
  obtain ⟨_ | buf, last⟩ := r
  · rw [Reads, same, loses]
    exact reads
  · obtain ⟨suffixes', less', sublist, iff⟩ := reads
    refine ⟨suffixes'.trans suffixes, less'.trans less, ?_, ?_⟩
    · rw [same]
      exact sublist
    · rw [same, loses]
      exact iff

theorem Reads.of_drops {later : List (List Key)} {r : Option Key × List (List Key)}
    (reads : Reads info later r) (drops : Drops info (fun _ => true) children later)
    (loses : ¬ LosesNone info children) : Reads info children r := by
  -- if all keys were still reached, the next round would give the same key up
  have notAll (none : LosesNone info later) :
      reached info (fun _ => true) later ≠ reached info (fun _ => true) children :=
    fun all => none later .here (drops.again all).1
  obtain ⟨_ | buf, last⟩ := r
  · refine iff_of_false (fun empty => ?_) loses
    have empty' : reached info (fun _ => true) later = [] :=
      List.sublist_nil.mp (empty ▸ drops.sublist)
    exact notAll (reads.mp empty') (empty'.trans empty.symm)
  · obtain ⟨suffixes, less, sublist, iff⟩ := reads
    refine ⟨suffixes.trans drops.suffixes, less.trans drops.less, sublist.trans drops.sublist,
      iff_of_false loses ?_⟩
    rintro ⟨all, none⟩
    have same : buf :: reached info (fun _ => true) last = reached info (fun _ => true) later :=
      sublist.eq_of_length_le (all ▸ drops.sublist.length_le)
    exact notAll (iff.mpr ⟨same, none⟩) (same.symm.trans all)

theorem exists_allLoop {fuel : Nat} (enough : left children < fuel) (sorted : Sorted children) :
    ∃ r, allLoop info fuel children = some r ∧ Reads info children r := by
  induction fuel generalizing children with
  | zero => exact absurd enough (Nat.not_lt_zero _)
  | succ fuel ih =>
    obtain ⟨keeps, drops⟩ := @round_keeps info (fun _ => true) children sorted
      fun _ _ => rfl
    rw [allLoop]
    by_cases loses : Loses info children
    · obtain ⟨later, is, drops⟩ := drops loses
      have less := drops.less
      obtain ⟨r, run, reads⟩ := ih (by omega) (drops.suffixes.sorted sorted)
      rw [is]
      exact ⟨r, run, reads.of_drops drops fun none => none children .here loses⟩
    · have keeps := keeps loses
      cases is : round info children with
      | hit buf later =>
        rw [is] at keeps
        obtain ⟨same, suffixes, less⟩ := keeps
        refine ⟨_, rfl, suffixes, less, same ▸ Sublist.refl _, ?_⟩
        rw [losesNone_hit is]
        exact and_congr_left' (iff_of_true loses same.symm)
      | eof =>
        rw [is] at keeps
        refine ⟨_, rfl, ?_⟩
        exact iff_of_true keeps ((losesNone_eof is).mpr loses)
      | forward later =>
        rw [is] at keeps
        obtain ⟨same, suffixes, less⟩ := keeps
        obtain ⟨r, run, reads⟩ := ih (by omega) (suffixes.sorted sorted)
        exact ⟨r, run, reads.kept suffixes less same
          ((losesNone_forward is).trans (and_iff_right loses))⟩

/-- The set is opened with the ordered flag, without exclusion and with one of the first
relations. -/
structure Ordered (info : ProxInfo) : Prop where
  ordered : info.ordered = true
  exclusion : info.exclusion = false
  relation : info.relation = 1 ∨ info.relation = 2 ∨ info.relation = 3

/-- All reads give a part of the keys that are reached, which is all of them if and only if no round
gives up a key with a chain behind it. -/
theorem readAll_reached {fuel : Nat} (ordered : Ordered info)
    (enough : left children < fuel) (sorted : Sorted children) :
    ∃ out, readAll info fuel children = some out ∧
      out.Sublist (reached info (fun _ => true) children) ∧
      (out = reached info (fun _ => true) children ↔ LosesNone info children) := by
  induction fuel generalizing children with
  | zero => exact absurd enough (Nat.not_lt_zero _)
  | succ fuel ih =>
    obtain ⟨r, run, reads⟩ := @exists_allLoop info _ _ enough sorted
    have first : info.ordered ∧ info.relation ≤ 3 ∧ info.exclusion = false :=
      ⟨ordered.ordered, by have := ordered.relation; omega, ordered.exclusion⟩
    rw [readAll, rRead, if_pos first, run]
    obtain ⟨_ | buf, later⟩ := r
    · exact ⟨[], rfl, nil_sublist _, eq_comm.trans reads⟩
    · obtain ⟨suffixes, less, sublist, iff⟩ := reads
      obtain ⟨out, rest, part, all⟩ := ih (by omega) (suffixes.sorted sorted)
      refine ⟨buf :: out, by simp only [rest, Option.map_some],
        (part.cons_cons buf).trans sublist, ?_⟩
      rw [iff, ← all]
      constructor
      · intro same
        have le := sublist.length_le
        rw [← same] at le
        have full : out = reached info (fun _ => true) later :=
          part.eq_of_length_le (Nat.le_of_succ_le_succ le)
        exact ⟨full ▸ same, full⟩
      · rintro ⟨same, rfl⟩
        exact same

def Exact (info : ProxInfo) (children : List (List Key)) : Prop :=
  ∀ fuel, left children < fuel → readAll info fuel children = some (hits info children)

/-- With the relation "equal" a left key is given up when the right one is still too near. -/
def overtaken (distance : Int) : List (List Key) := [[⟨1, 1⟩], [⟨1, 2⟩, ⟨1, 1 + distance⟩]]

/-- A key that is given up with a chain behind it has a neighbour that is too near. -/
theorem Loses.apart (sorted : Sorted children) (loses : Loses info children) :
    info.relation = 3 ∧ 2 ≤ info.distance := by
  induction children using round.induct info with
  | case5 child rest => cases child <;> exact False.elim loses
  | case6 previous earlier buf more rest behind =>
    have := le_cmp_iff.mp behind
    rw [Loses, if_neg fun near => by have := (near_iff.mp near).1; omega] at loses
    exact absurd loses.1 (by omega)
  | case7 previous earlier buf more rest level order related ih =>
    by_cases isNear : near info previous buf = true
    · rw [Loses, if_pos isNear] at loses
      exact ih sorted.tail loses
    · rw [Loses, if_neg isNear] at loses
      exact absurd (near_iff.mpr ⟨loses.1, loses.2.1, related⟩) isNear
  | case8 previous earlier buf more rest level order related =>
    rw [Loses, if_neg fun near => related (near_iff.mp near).2.2] at loses
    obtain ⟨same, less, continues⟩ := loses
    obtain ⟨equal, near⟩ := continues.too_near (sorted _ (by simp)) same less
      (Bool.eq_false_iff.mpr related)
    exact ⟨equal, by omega⟩
  | case9 previous earlier buf more rest level order =>
    have := mt cmp_pos_iff.mpr order
    rw [Loses, if_neg fun near => by have := near_iff.mp near; omega] at loses
    obtain ⟨same, less, -⟩ := loses
    omega
  | _ => exact False.elim loses

theorem Reached.sorted {last : List (List Key)} (reached : Reached info children last)
    (sorted : Sorted children) : Sorted last := by
  induction reached with
  | here => exact sorted
  | @forward children later _ is _ ih =>
    refine ih ?_
    obtain ⟨keeps, drops⟩ := @round_keeps info (fun _ => true) children sorted
      fun _ _ => rfl
    by_cases loses : Loses info children
    · obtain ⟨later', is', drops⟩ := drops loses
      rw [is] at is'
      cases is'
      exact drops.suffixes.sorted sorted
    · have keeps := keeps loses
      rw [is] at keeps
      exact keeps.2.1.sorted sorted
  | @hit children later _ buf is _ ih =>
    refine ih ?_
    obtain ⟨keeps, drops⟩ := @round_keeps info (fun _ => true) children sorted
      fun _ _ => rfl
    by_cases loses : Loses info children
    · obtain ⟨later', is', drops⟩ := drops loses
      rw [is] at is'
      cases is'
    · have keeps := keeps loses
      rw [is] at keeps
      exact keeps.2.1.sorted sorted

theorem sorted_overtaken {distance : Int} (apart : 2 ≤ distance) : Sorted (overtaken distance) := by
  intro child member
  obtain rfl | member := mem_cons.mp member
  · exact pairwise_singleton _ _
  · obtain rfl := mem_singleton.mp member
    exact pairwise_pair.mpr (.inr ⟨rfl, by simp; omega⟩)

theorem readAll_overtaken (ordered : Ordered info) (equal : info.relation = 3)
    (apart : 2 ≤ info.distance) : readAll info 4 (overtaken info.distance) = some [] := by
  have not_one : ¬ (1 : Int) = info.distance := by omega
  simp [readAll, rRead, allLoop, overtaken, round, cmp, scope, inRelation, ordered.ordered,
    ordered.exclusion, equal, not_one]

theorem mem_hits_overtaken (equal : info.relation = 3) (apart : 2 ≤ info.distance) :
    ⟨1, 1 + info.distance⟩ ∈ hits info (overtaken info.distance) := by
  have near : near info ⟨1, 1⟩ ⟨1, 1 + info.distance⟩ = true :=
    near_iff.mpr ⟨rfl, by simp; omega, by simp [inRelation, equal]⟩
  have chain : ∃ keys, Chain info (overtaken info.distance) ⟨1, 1 + info.distance⟩ keys :=
    ⟨[⟨1, 1⟩, ⟨1, 1 + info.distance⟩], .cons (by simp) (.cons (by simp) .nil),
      isChain_pair.mpr near, rfl⟩
  exact mem_filter.mpr ⟨by simp [overtaken], by simpa using chain⟩

theorem not_exact_overtaken (ordered : Ordered info) (equal : info.relation = 3)
    (apart : 2 ≤ info.distance) : ¬ Exact info (overtaken info.distance) := by
  intro exact
  have run := exact 4 (by simp [left, overtaken])
  rw [readAll_overtaken ordered equal apart] at run
  have member := mem_hits_overtaken equal apart
  rw [← Option.some.inj run] at member
  exact not_mem_nil member

theorem exact_iff_losesNone (ordered : Ordered info) (sorted : Sorted children) :
    Exact info children ↔ LosesNone info children := by
  constructor
  · intro exact
    obtain ⟨out, run, -, iff⟩ := readAll_reached ordered (Nat.lt_succ_self _) sorted
    rw [exact _ (Nat.lt_succ_self _)] at run
    rw [← iff, ← Option.some.inj run, reached_eq_hits]
  · intro none fuel enough
    obtain ⟨out, run, -, iff⟩ := readAll_reached ordered enough sorted
    rw [run, iff.mpr none, reached_eq_hits]

end Zebra.Rset.Prox
