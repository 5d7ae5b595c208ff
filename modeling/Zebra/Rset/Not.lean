import Zebra.Rset.Seeking

/-!
# The not

`rsbool.c`: both sets are read with one key of lookahead each.  A key of the left set is given when
the right one is a record further; when both are of one record, the record is skipped in both.
-/

namespace Zebra.Rset

open Multiset

/-- `struct rfd_private` of `rsbool.c`; a lookahead is a key with its term, if there is more. -/
structure NotRfd (σl σr Key Term : Type) where
  rfdL : Rsfd σl Key
  rfdR : Rsfd σr Key
  bufL : Option (Key × Term)
  bufR : Option (Key × Term)

variable {σ σl σr Key Term : Type} (kc : KeyControl Key)

/-- The loops of `r_read_not` that read on while keys are of the record of `buf`. -/
def skipRecord (c : RsetControl σ Key Term) (buf : Key) :
    Nat → Rsfd σ Key → Option (Option (Key × Term) × Rsfd σ Key)
  | 0, _ => none
  | fuel + 1, rfd => do
      let (item, rfd) ← rsetDefaultRead kc c fuel rfd
      match item with
      | none => some (none, rfd)
      | some item =>
        if (kc.cmp item.1 buf).natAbs < kc.scope then skipRecord c buf fuel rfd
        else some (some item, rfd)

section

variable (cl : RsetControl σl Key Term) (cr : RsetControl σr Key Term)

/-- `r_open` -/
def rOpenNot (fuel : Nat) (l : RSet σl) (r : RSet σr) : Option (NotRfd σl σr Key Term) := do
  let (bufL, rfdL) ← rsetDefaultRead kc cl fuel (rsetOpen l)
  let (bufR, rfdR) ← rsetDefaultRead kc cr fuel (rsetOpen r)
  some { rfdL, rfdR, bufL, bufR }

def rReadNot : Nat → NotRfd σl σr Key Term → Option (Option (Key × Term) × NotRfd σl σr Key Term)
  | 0, _ => none
  | fuel + 1, p =>
    match p.bufL with
    | none => some (none, p)
    | some l =>
      let cmp := match p.bufR with
        | some r => kc.cmp l.1 r.1
        | none => -kc.scope
      if cmp ≤ -kc.scope then do
        let (bufL, rfdL) ← rsetDefaultRead kc cl fuel p.rfdL
        some (some l, { p with rfdL, bufL })
      else if kc.scope ≤ cmp then do
        let (bufR, rfdR) ← rsetDefaultForward kc cr fuel p.rfdR l.1
        rReadNot fuel { p with rfdR, bufR }
      else do
        let (bufL, rfdL) ← skipRecord kc cl l.1 fuel p.rfdL
        let (bufR, rfdR) ← skipRecord kc cr l.1 fuel p.rfdR
        rReadNot fuel { rfdL, rfdR, bufL, bufR }

/-- A lookahead that is a whole record behind is forwarded. -/
def forwardBehind (c : RsetControl σ Key Term) (fuel : Nat) (untilbuf : Key)
    (buf : Option (Key × Term))
    (rfd : Rsfd σ Key) : Option (Option (Key × Term) × Rsfd σ Key) :=
  match buf with
  | none => some (none, rfd)
  | some item =>
    if kc.scope ≤ kc.cmp untilbuf item.1 then rsetDefaultForward kc c fuel rfd untilbuf
    else some (some item, rfd)

/-- `r_forward`; that the read at its end is counted once more makes no difference. -/
def rForwardNot (fuel : Nat) (p : NotRfd σl σr Key Term) (untilbuf : Key) :
    Option (Option (Key × Term) × NotRfd σl σr Key Term) := do
  let (bufL, rfdL) ← forwardBehind kc cl fuel untilbuf p.bufL p.rfdL
  let (bufR, rfdR) ← forwardBehind kc cr fuel untilbuf p.bufR p.rfdR
  rReadNot kc cl cr fuel { rfdL, rfdR, bufL, bufR }

def controlNot : RsetControl (NotRfd σl σr Key Term) Key Term where
  fRead := rReadNot kc cl cr
  fForward := some (rForwardNot kc cl cr)

end

/-- A collection has a key of the record of `key`. -/
def Occurs (m : Multiset (Key × Term)) (key : Key) : Prop := ∃ other ∈ m, kc.Near key other.1

instance (m : Multiset (Key × Term)) (key : Key) : Decidable (Occurs kc m key) :=
  Multiset.decidableExistsMultiset

/-- The keys whose record has no key in another collection. -/
def without (ml mr : Multiset (Key × Term)) : Multiset (Key × Term) :=
  ml.filter fun item => ¬ Occurs kc mr item.1

/-- What is left of two collections, with the lookaheads. -/
def NotHolds (hl : σl → Multiset (Key × Term) → Prop) (hr : σr → Multiset (Key × Term) → Prop)
    (p : NotRfd σl σr Key Term) (m : Multiset (Key × Term)) : Prop :=
  ∃ ml mr, Delivers kc (Rsfd.Holds hl) ml (p.bufL, p.rfdL) ∧
    Delivers kc (Rsfd.Holds hr) mr (p.bufR, p.rfdR) ∧ m = without kc ml mr

variable {kc}

/-- The collections only matter for the records that they have in common. -/
theorem without_congr {ml mr mr' : Multiset (Key × Term)}
    (same : ∀ item ∈ ml, Occurs kc mr item.1 ↔ Occurs kc mr' item.1) :
    without kc ml mr = without kc ml mr' :=
  filter_congr fun item member => not_congr (same item member)

theorem without_cons {item : Key × Term} {ml mr : Multiset (Key × Term)}
    (far : ¬ Occurs kc mr item.1) : without kc (item ::ₘ ml) mr = item ::ₘ without kc ml mr :=
  filter_cons_of_pos ml far

theorem without_filter (p : Key × Term → Prop) [DecidablePred p] (ml mr : Multiset (Key × Term)) :
    without kc (ml.filter p) mr = (without kc ml mr).filter p := by
  rw [without, without, filter_filter, filter_filter]
  exact filter_congr fun _ _ => and_comm

/-- Only one record of the second collection does not matter for other records. -/
theorem occurs_filter {m : Multiset (Key × Term)} (p : Key → Prop)
    [DecidablePred fun item : Key × Term => p item.1] (records : ∀ a b, kc.Near a b → p a → p b)
    {key : Key} (here : p key) :
      Occurs kc (m.filter fun item => p item.1) key ↔ Occurs kc m key := by
  constructor
  · rintro ⟨other, member, near⟩
    exact ⟨other, (mem_filter.mp member).1, near⟩
  · rintro ⟨other, member, near⟩
    exact ⟨other, mem_filter.mpr ⟨member, records _ _ near here⟩, near⟩

/-- Keys in order from a key of a record on: those not of the record are beyond. -/
theorem beyond_of_least {buf : Key} {item : Key × Term} (near : kc.Near item.1 buf) {other : Key}
    (le : kc.cmp item.1 other ≤ 0) (far : ¬ kc.Near other buf) : kc.cmp buf other ≤ -kc.scope := by
  have apart : ¬ kc.Near item.1 other := fun near' =>
    far (kc.near_trans (kc.near_symm near') near)
  exact kc.beyond_of_near near (kc.beyond le apart)

theorem exists_skipRecord {c : RsetControl σ Key Term} {holds : σ → Multiset (Key × Term) → Prop}
    (yields : Yields kc c holds) {buf : Key} {rfd : Rsfd σ Key} {m : Multiset (Key × Term)}
    (held : rfd.Holds holds m)
    (order : ∀ item ∈ m, ¬ kc.Near item.1 buf → kc.cmp buf item.1 ≤ -kc.scope) :
    ∃ out, Settles (fun fuel => skipRecord kc c buf fuel rfd) out ∧
      Delivers kc (Rsfd.Holds holds) (m.filter fun item => ¬ kc.Near item.1 buf) out := by
  induction m using strongInductionOn generalizing rfd with
  | ih m ih =>
    obtain ⟨⟨item, rfd'⟩, settles, delivers⟩ := yields.rsetDefaultRead held
    cases delivers with
    | eof empty => exact ⟨_, .step (fun _ => rfl) settles (.pure _), .eof empty⟩
    | @key item rest _ left least =>
      have same : (kc.cmp item.1 buf).natAbs < kc.scope ↔ kc.Near item.1 buf := by
        rw [KeyControl.Near]
        omega
      by_cases near : kc.Near item.1 buf
      · obtain ⟨out, later, delivers⟩ := ih rest (lt_cons_self rest item) left
          fun other member => order other (mem_cons_of_mem member)
        refine ⟨out, .step (fun _ => rfl) settles ?_, ?_⟩
        · simpa only [if_pos (same.mpr near)] using later
        · rw [filter_cons_of_neg rest (not_not.mpr near)]
          exact delivers
      · refine ⟨(some item, rfd'), .step (fun _ => rfl) settles ?_, ?_⟩
        · simp only [if_neg (mt same.mp near)]
          exact .pure _
        · have beyond := order item (mem_cons_self item rest) near
          have all : (item ::ₘ rest).filter (fun item => ¬ kc.Near item.1 buf) = item ::ₘ rest := by
            refine filter_eq_self.mpr fun other member near' => ?_
            obtain rfl | member := mem_cons.mp member
            · exact near near'
            · exact kc.far_of_beyond (kc.beyond_mono beyond (least other member))
                (kc.near_symm near')
          rw [all]
          exact .key left least

section

variable {cl : RsetControl σl Key Term} {cr : RsetControl σr Key Term}
  {hl : σl → Multiset (Key × Term) → Prop} {hr : σr → Multiset (Key × Term) → Prop}

theorem not_occurs_of_beyond {item : Key × Term} {m : Multiset (Key × Term)} {key : Key}
    (beyond : kc.cmp key item.1 ≤ -kc.scope) (least : ∀ other ∈ m, kc.cmp item.1 other.1 ≤ 0) :
    ¬ Occurs kc (item ::ₘ m) key := by
  rintro ⟨other, member, near⟩
  obtain rfl | member := mem_cons.mp member
  · exact kc.far_of_beyond beyond near
  · exact kc.far_of_beyond (kc.beyond_mono beyond (least other member)) near

variable {ml mr : Multiset (Key × Term)}

/-- The left key is given when the right set has nothing of its record. -/
theorem exists_give (yieldsL : Yields kc cl hl) {l : Key × Term}
    {p : NotRfd σl σr Key Term} (held : p.rfdL.Holds hl ml)
    (least : ∀ other ∈ ml, kc.cmp l.1 other.1 ≤ 0)
    (right : Delivers kc (Rsfd.Holds hr) mr (p.bufR, p.rfdR)) (far : ¬ Occurs kc mr l.1) :
    ∃ out, Settles (fun fuel => (rsetDefaultRead kc cl fuel p.rfdL).bind fun (bufL, rfdL) =>
        some (some l, ({ p with rfdL, bufL } : NotRfd σl σr Key Term))) out ∧
      Delivers kc (NotHolds kc hl hr) (without kc (l ::ₘ ml) mr) out := by
  obtain ⟨⟨bufL, rfdL⟩, settles, delivers⟩ := yieldsL.rsetDefaultRead held
  refine ⟨_, settles.bind (.pure _), ?_⟩
  rw [without_cons far]
  exact .key ⟨ml, mr, delivers, right, rfl⟩ fun other member =>
    least other (mem_filter.mp member).1

/-- Records that are behind a key in the second collection do not matter for keys from there on. -/
theorem without_skipped {key : Key} {skipped left : Multiset (Key × Term)}
    (behind : ∀ item ∈ skipped, kc.scope ≤ kc.cmp key item.1)
    (from_here : ∀ item ∈ ml, kc.cmp key item.1 < kc.scope) :
    without kc ml (skipped + left) = without kc ml left := by
  refine without_congr fun item member => ⟨?_, ?_⟩
  · rintro ⟨other, either, near⟩
    obtain passed | there := mem_add.mp either
    · exact absurd (kc.ahead_of_near near (from_here item member))
        (not_lt.mpr (behind other passed))
    · exact ⟨other, there, near⟩
  · rintro ⟨other, there, near⟩
    exact ⟨other, mem_add.mpr (.inr there), near⟩

theorem without_record {l r : Key × Term} (near : kc.Near l.1 r.1) :
    without kc (ml.filter fun item => ¬ kc.Near item.1 l.1)
        (mr.filter fun item => ¬ kc.Near item.1 l.1) =
      without kc (l ::ₘ ml) (r ::ₘ mr) := by
  have records : ∀ a b, kc.Near a b → ¬ kc.Near a l.1 → ¬ kc.Near b l.1 :=
    fun a b near' far near'' => far (kc.near_trans near' near'')
  have whole : without kc (l ::ₘ ml) (r ::ₘ mr) =
      (without kc (l ::ₘ ml) (r ::ₘ mr)).filter fun item => ¬ kc.Near item.1 l.1 := by
    refine (filter_eq_self.mpr fun item member near' => ?_).symm
    exact (mem_filter.mp member).2 ⟨r, mem_cons_self r mr, kc.near_trans near' near⟩
  rw [whole, ← without_filter, filter_cons_of_neg ml (not_not.mpr (kc.near_refl l.1))]
  refine without_congr fun item member => ?_
  have here := (mem_filter.mp member).2
  rw [← occurs_filter (m := r ::ₘ mr) (fun key => ¬ kc.Near key l.1) records here,
    filter_cons_of_neg mr (not_not.mpr (kc.near_symm near))]

theorem exists_rReadNot (yieldsL : Yields kc cl hl) (yieldsR : Yields kc cr hr)
    {p : NotRfd σl σr Key Term}
    (left : Delivers kc (Rsfd.Holds hl) ml (p.bufL, p.rfdL))
    (right : Delivers kc (Rsfd.Holds hr) mr (p.bufR, p.rfdR)) :
    ∃ out, Settles (fun fuel => rReadNot kc cl cr fuel p) out ∧
      Delivers kc (NotHolds kc hl hr) (without kc ml mr) out := by
  induction mr using strongInductionOn generalizing ml p with
  | ih mr ih =>
    obtain ⟨rfdL, rfdR, bufL, bufR⟩ := p
    cases left with
    | eof empty =>
      refine ⟨(none, _), .succ (.pure _), ?_⟩
      exact .eof ⟨0, mr, .eof empty, right, rfl⟩
    | @key l ml _ held least =>
      cases right with
      | eof empty =>
        obtain ⟨out, settles, delivers⟩ :=
          exists_give (p := ⟨rfdL, rfdR, some l, none⟩) yieldsL held
          least (.eof empty) fun ⟨_, member, _⟩ => notMem_zero _ member
        refine ⟨out, .succ ?_, delivers⟩
        simp only [rReadNot, le_refl, if_true]
        exact settles
      | @key r mr _ heldR leastR =>
        by_cases before : kc.cmp l.1 r.1 ≤ -kc.scope
        · obtain ⟨out, settles, delivers⟩ := exists_give (p := ⟨rfdL, rfdR, some l, some r⟩)
            yieldsL held least (.key heldR leastR) (not_occurs_of_beyond before leastR)
          refine ⟨out, .succ ?_, delivers⟩
          simp only [rReadNot, if_pos before]
          exact settles
        by_cases after : kc.scope ≤ kc.cmp l.1 r.1
        · obtain ⟨⟨bufR, rfdR'⟩, settles, skipped, ahead, rfl, behind, delivers⟩ :=
            yieldsR.rsetDefaultForward l.1 heldR
          have fewer : ahead < r ::ₘ (skipped + ahead) :=
            lt_of_le_of_lt (le_add_left _ _) (lt_cons_self _ r)
          obtain ⟨out, rest, gives⟩ := ih _ fewer (p := ⟨rfdL, rfdR', some l, bufR⟩)
            (.key held least) delivers
          have from_here : ∀ item ∈ l ::ₘ ml, kc.cmp l.1 item.1 < kc.scope := by
            intro item member
            have pos := kc.scope_pos
            obtain rfl | member := mem_cons.mp member
            · rw [kc.cmp_self]
              exact pos
            · exact (least item member).trans_lt pos
          refine ⟨out, .succ ?_, ?_⟩
          · simp only [rReadNot, if_neg before, if_pos after]
            exact settles.bind rest
          · have passed : ∀ item ∈ r ::ₘ skipped, kc.scope ≤ kc.cmp l.1 item.1 := by
              intro item member
              obtain rfl | member := mem_cons.mp member
              · exact after
              · exact behind item member
            rw [← cons_add, without_skipped passed from_here]
            exact gives
        · have near : kc.Near l.1 r.1 := ⟨by omega, by omega⟩
          obtain ⟨⟨bufL, rfdL'⟩, settlesL, deliversL⟩ := exists_skipRecord yieldsL held
            fun item member far => beyond_of_least (kc.near_refl l.1) (least item member) far
          obtain ⟨⟨bufR, rfdR'⟩, settlesR, deliversR⟩ := exists_skipRecord yieldsR heldR
            fun item member far => beyond_of_least (kc.near_symm near) (leastR item member) far
          have fewer : mr.filter (fun item => ¬ kc.Near item.1 l.1) < r ::ₘ mr :=
            lt_of_le_of_lt (filter_le _ _) (lt_cons_self mr r)
          obtain ⟨out, rest, gives⟩ := ih _ fewer (p := ⟨rfdL', rfdR', bufL, bufR⟩)
            deliversL deliversR
          refine ⟨out, .succ ?_, ?_⟩
          · simp only [rReadNot, if_neg before, if_neg after]
            exact settlesL.bind (settlesR.bind rest)
          · rw [without_record near] at gives
            exact gives

theorem exists_forwardBehind {c : RsetControl σ Key Term} {holds : σ → Multiset (Key × Term) → Prop}
    (seeks : Seeks kc c holds) (untilbuf : Key) {m : Multiset (Key × Term)}
    {buf : Option (Key × Term)} {rfd : Rsfd σ Key}
    (held : Delivers kc (Rsfd.Holds holds) m (buf, rfd)) :
    ∃ out, Settles (fun fuel => forwardBehind kc c fuel untilbuf buf rfd) out ∧
      Delivers kc (Rsfd.Holds holds) (ahead kc untilbuf m) out := by
  cases held with
  | eof empty => exact ⟨_, .pure _, .eof empty⟩
  | @key item rest _ left least =>
    by_cases behind : kc.scope ≤ kc.cmp untilbuf item.1
    · obtain ⟨out, settles, delivers⟩ := seeks.rsetDefaultForward untilbuf left
      refine ⟨out, ?_, ?_⟩
      · simpa only [forwardBehind, if_pos behind] using settles
      · rw [ahead_cons_of_behind (not_lt.mpr behind)]
        exact delivers
    · refine ⟨(some item, rfd), ?_, ?_⟩
      · simp only [forwardBehind, if_neg behind]
        exact .pure _
      · rw [ahead_eq_self (not_le.mp behind) least]
        exact .key left least

/-- Forwarding leaves out what is behind, in both collections. -/
theorem without_ahead_ahead (untilbuf : Key) (ml mr : Multiset (Key × Term)) :
    without kc (ahead kc untilbuf ml) (ahead kc untilbuf mr) = ahead kc untilbuf
      (without kc ml mr) := by
  have from_here : ∀ item ∈ ahead kc untilbuf ml, kc.cmp untilbuf item.1 < kc.scope :=
    fun item member => (mem_filter.mp member).2
  have behind : ∀ item ∈ mr.filter (fun item => ¬ kc.cmp untilbuf item.1 < kc.scope),
      kc.scope ≤ kc.cmp untilbuf item.1 := fun item member => not_lt.mp (mem_filter.mp member).2
  calc
    without kc (ahead kc untilbuf ml) (ahead kc untilbuf mr) = without kc
      (ahead kc untilbuf ml) mr := by
      conv_rhs => rw [ahead_add_behind untilbuf mr, without_skipped behind from_here]
    _ = ahead kc untilbuf (without kc ml mr) := without_filter _ ml mr

theorem controlNot_seeks (seeksL : Seeks kc cl hl) (seeksR : Seeks kc cr hr) :
    Seeks kc (controlNot kc cl cr) (NotHolds kc hl hr) where
  read p m held := by
    obtain ⟨ml, mr, left, right, rfl⟩ := held
    exact exists_rReadNot seeksL.yields seeksR.yields left right
  forward fForward has p m untilbuf held := by
    obtain ⟨ml, mr, left, right, rfl⟩ := held
    obtain rfl := Option.some.inj has
    obtain ⟨⟨bufL, rfdL⟩, settlesL, deliversL⟩ := exists_forwardBehind seeksL untilbuf left
    obtain ⟨⟨bufR, rfdR⟩, settlesR, deliversR⟩ := exists_forwardBehind seeksR untilbuf right
    obtain ⟨out, rest, gives⟩ := exists_rReadNot (p := ⟨rfdL, rfdR, bufL, bufR⟩) seeksL.yields
      seeksR.yields deliversL deliversR
    rw [without_ahead_ahead] at gives
    exact ⟨out, settlesL.bind (settlesR.bind rest), gives⟩

theorem exists_rOpenNot (yieldsL : Yields kc cl hl) (yieldsR : Yields kc cr hr) {l : RSet σl}
    {r : RSet σr} (openL : hl l.fOpen ml) (openR : hr r.fOpen mr) :
    ∃ p, Settles (fun fuel => rOpenNot kc cl cr fuel l r) p ∧
      NotHolds kc hl hr p (without kc ml mr) := by
  obtain ⟨⟨bufL, rfdL⟩, settlesL, deliversL⟩ :=
    yieldsL.rsetDefaultRead (show Rsfd.Holds hl (rsetOpen l) ml from openL)
  obtain ⟨⟨bufR, rfdR⟩, settlesR, deliversR⟩ :=
    yieldsR.rsetDefaultRead (show Rsfd.Holds hr (rsetOpen r) mr from openR)
  exact ⟨_, settlesL.bind (settlesR.bind (.pure _)), ml, mr, deliversL, deliversR, rfl⟩

theorem rsetReadAll_congr {c d : RsetControl σ Key Term} (reads : c.fRead = d.fRead) (fuel : Nat)
    (rfd : Rsfd σ Key) : rsetReadAll kc c fuel rfd = rsetReadAll kc d fuel rfd := by
  induction fuel generalizing rfd with
  | zero => rfl
  | succ fuel induction => simp only [rsetReadAll, rsetDefaultRead, reads, induction]

theorem controlNot_readAll (yieldsL : Yields kc cl hl) (yieldsR : Yields kc cr hr)
    {rfd : Rsfd (NotRfd σl σr Key Term) Key} {m : Multiset (Key × Term)}
    (held : rfd.Holds (NotHolds kc hl hr) m) :
    ∃ keys, Settles (fun fuel => rsetReadAll kc (controlNot kc cl cr) fuel rfd) keys ∧
      (keys : Multiset _) = m ∧ keys.Pairwise fun a b => kc.cmp a.1 b.1 ≤ 0 := by
  have readOnly : Yields kc ⟨rReadNot kc cl cr, none⟩ (NotHolds kc hl hr) :=
    { read := by
        rintro p _ ⟨ml, mr, left, right, rfl⟩
        exact exists_rReadNot yieldsL yieldsR left right
      forward := nofun }
  -- a set that is only read makes no use of its own forward
  simp only [rsetReadAll_congr (c := controlNot kc cl cr) (d := ⟨rReadNot kc cl cr, none⟩) rfl]
  exact readOnly.rsetReadAll held

/-- Reading gives the keys of the left set whose record has none in the right one, in order; so do
reads and forwards in any order of sets that seek, but that a forward leaves out what is a whole
record behind. -/
theorem not_gives (yieldsL : Yields kc cl hl) (yieldsR : Yields kc cr hr) {l : RSet σl}
    {r : RSet σr}
    {ml mr : Multiset (Key × Term)} (openL : hl l.fOpen ml) (openR : hr r.fOpen mr)
    (hitsLimit : Nat) :
    ∃ p, Settles (fun fuel => rOpenNot kc cl cr fuel l r) p ∧
      (∃ keys, Settles (fun fuel => rsetReadAll kc (controlNot kc cl cr) fuel
          (rsetOpen ⟨hitsLimit, p⟩)) keys ∧
        (keys : Multiset _) = without kc ml mr ∧ keys.Pairwise fun a b => kc.cmp a.1 b.1 ≤ 0) ∧
      (Seeks kc cl hl → Seeks kc cr hr → ∀ calls, ∃ items rfd m',
        Settles (fun fuel => serve kc (controlNot kc cl cr) fuel calls
          (rsetOpen ⟨hitsLimit, p⟩)) (items, rfd) ∧
        Served kc calls (without kc ml mr) items m') := by
  obtain ⟨p, settles, held⟩ := exists_rOpenNot yieldsL yieldsR openL openR
  have opened : Rsfd.Holds (NotHolds kc hl hr) (rsetOpen ⟨hitsLimit, p⟩) (without kc ml mr) := held
  refine ⟨p, settles, controlNot_readAll yieldsL yieldsR opened, fun seeksL seeksR calls => ?_⟩
  obtain ⟨items, rfd, m', served, gives, -⟩ := (controlNot_seeks seeksL seeksR).serve calls opened
  exact ⟨items, rfd, m', served, gives⟩

end

def twoRecords : List (LevelKey 2 × Nat) :=
    [(⟨[1, 1], rfl⟩, 0), (⟨[2, 1], rfl⟩, 0), (⟨[2, 3], rfl⟩, 0)]

def secondRecord : List (LevelKey 2 × Nat) := [(⟨[2, 2], rfl⟩, 0)]

theorem not_gives_two :
    ∃ p, Settles (fun fuel => rOpenNot (itKeyControl 2) tempControl tempControl fuel
        ⟨0, twoRecords⟩ ⟨0, secondRecord⟩) p ∧
      (∃ keys, Settles (fun fuel => rsetReadAll (itKeyControl 2)
          (controlNot (itKeyControl 2) tempControl tempControl) fuel (rsetOpen ⟨0, p⟩)) keys ∧
        (keys : Multiset (LevelKey 2 × Nat)) = without (itKeyControl 2) twoRecords secondRecord ∧
        keys.Pairwise fun a b => (itKeyControl 2).cmp a.1 b.1 ≤ 0) ∧
      ∀ calls, ∃ items rfd m', Settles (fun fuel => serve (itKeyControl 2)
          (controlNot (itKeyControl 2) tempControl tempControl) fuel calls (rsetOpen ⟨0, p⟩))
          (items, rfd) ∧
        Served (itKeyControl 2) calls
          (without (itKeyControl 2) twoRecords secondRecord) items m' := by
  obtain ⟨p, settles, reads, forwards⟩ := not_gives (tempControl_yields (itKeyControl 2))
    (tempControl_yields _)
    (l := ⟨0, twoRecords⟩) (r := ⟨0, secondRecord⟩) ⟨rfl, by decide⟩ ⟨rfl, by decide⟩ 0
  exact ⟨p, settles, reads, forwards (tempControl_seeks _) (tempControl_seeks _)⟩

/-- A forward gives a key of the record of its target also when that key is before the target. -/
theorem not_gives_before :
    (serve (itKeyControl 2) (controlNot (itKeyControl 2) tempControl tempControl) 3
      [some ⟨[1, 5], rfl⟩]
        (rsetOpen ⟨0, ⟨rsetOpen ⟨0, []⟩, rsetOpen ⟨0, []⟩, some (⟨[1, 1], rfl⟩, 0), none⟩⟩)).map
          (·.1) =
      some [some (⟨[1, 1], rfl⟩, 0)] ∧
    (itKeyControl 2).cmp ⟨[1, 1], rfl⟩ ⟨[1, 5], rfl⟩ < 0 :=
  ⟨by decide, by decide⟩

end Zebra.Rset
