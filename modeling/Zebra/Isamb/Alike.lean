import Zebra.Isamb.Cursor
import Zebra.Isamb.Kept

/-!
# States that read alike

A cursor sees of an ISAMB only which blocks open and how many levels there may be.  Related states
in which the same blocks open therefore hold the same lists.
-/

namespace Zebra.Isamb

open Isamb

variable {Item Code : Type} {m : IsamcM Item Code} {R : Isamb → Isamb → Prop}

/-- Related states open the same blocks and stay related. -/
structure OpensAlike (m : IsamcM Item Code) (R : Isamb → Isamb → Prop) : Prop where
  openBlock : ∀ {b b' c : Isamb} {pos : Nat} {p : Block Code}, R b b' →
    openBlock m b pos = .ok (p, c) → ∃ c', Isamb.openBlock m b' pos = .ok (p, c') ∧ R c c'
  maxLevels : ∀ {b b' : Isamb}, R b b' → b.maxLevels = b'.maxLevels

/-- Cursors that have the same blocks open. -/
structure AlikePP (R : Isamb → Isamb → Prop) (pp pp' : PP Code) : Prop where
  isamb : R pp.isamb pp'.isamb
  block : pp.block = pp'.block
  scope : pp.scope = pp'.scope

section

variable {scope : Int} {untilb : Option Item} {b b' c : Isamb} {pp pp' after : PP Code} {fuel : Nat}

theorem OpensAlike.enter (alike : OpensAlike m R) {pos : Nat} {stack opened : List (Block Code)}
    (related : R b b') (run : enter m scope untilb fuel b pos stack = .ok (opened, c)) :
    ∃ c', enter m scope untilb fuel b' pos stack = .ok (opened, c') ∧ R c c' := by
  induction fuel generalizing b b' pos stack with
  | zero => cases run
  | succ fuel ih =>
    rw [enter] at run
    obtain ⟨⟨p, b₁⟩, open_run, run⟩ := bind_eq_ok run
    obtain ⟨b₁', open_run', related⟩ := alike.openBlock related open_run
    rw [enter, open_run']
    simp only [bind, Except.bind] at run ⊢
    by_cases leaf : p.leaf
    · rw [if_pos leaf] at run
      cases run
      exact ⟨b₁', if_pos leaf, related⟩
    · rw [if_neg leaf] at run ⊢
      split at run
      · cases run
      · exact ih related run

theorem OpensAlike.ppOpenX (alike : OpensAlike m R) {pos : Nat} (related : R b b')
    (run : ppOpenX m b pos scope = .ok pp) :
    ∃ pp', ppOpenX m b' pos scope = .ok pp' ∧ AlikePP R pp pp' := by
  obtain ⟨⟨block, isamb⟩, enter_run, done⟩ := bind_eq_ok run
  cases done
  rw [alike.maxLevels related] at enter_run
  obtain ⟨isamb', enter_run', related⟩ := alike.enter related enter_run
  refine ⟨{ isamb := isamb', block, scope }, ?_, related, rfl, rfl⟩
  rw [ppOpenX, enter_run']
  rfl

theorem OpensAlike.nextLeaf (alike : OpensAlike m R) (same : AlikePP R pp pp') {more : Bool}
    (run : nextLeaf m untilb pp = .ok (more, after)) :
    ∃ after', nextLeaf m untilb pp' = .ok (more, after') ∧ AlikePP R after after' := by
  obtain ⟨isamb, block, scope⟩ := pp
  obtain ⟨isamb', block', scope'⟩ := pp'
  obtain ⟨related, rfl, rfl⟩ := same
  unfold nextLeaf at run ⊢
  split at run
  · cases run
  · next p stack climbed =>
    simp only [climbed]
    dsimp only at run related
    by_cases ended : p.offset = p.bytes.length
    · rw [if_pos ended] at run ⊢
      cases run
      exact ⟨_, rfl, related, rfl, rfl⟩
    · rw [if_neg ended] at run ⊢
      by_cases leaf : p.leaf
      · rw [if_pos leaf] at run
        cases run
      · rw [if_neg leaf] at run ⊢
        split at run
        · cases run
        · next pos src _ =>
          obtain ⟨⟨opened, c⟩, enter_run, done⟩ := bind_eq_ok run
          cases done
          rw [alike.maxLevels related] at enter_run
          obtain ⟨c', enter_run', related⟩ := alike.enter related enter_run
          refine ⟨{ isamb := c', block := opened, scope }, ?_, related, rfl, rfl⟩
          rw [enter_run']
          rfl

theorem OpensAlike.forwardFrom (alike : OpensAlike m R) (same : AlikePP R pp pp')
    {item : Option Item} (run : forwardFrom m untilb fuel pp = .ok (item, after)) :
    ∃ after', forwardFrom m untilb fuel pp' = .ok (item, after') ∧ AlikePP R after after' := by
  induction fuel generalizing pp pp' with
  | zero => cases run
  | succ fuel ih =>
    rw [forwardFrom] at run ⊢
    rw [← same.block, ← same.scope]
    split at run
    · cases run
      exact ⟨pp', rfl, same⟩
    · next p stack opened =>
      by_cases ended : p.offset = p.bytes.length
      · rw [if_pos ended] at run ⊢
        obtain ⟨⟨more, next⟩, next_run, run⟩ := bind_eq_ok run
        obtain ⟨next', next_run', same⟩ := alike.nextLeaf same next_run
        rw [next_run']
        simp only [bind, Except.bind] at run ⊢
        cases more with
        | true => exact ih same run
        | false =>
          cases run
          exact ⟨next', rfl, same⟩
      · rw [if_neg ended] at run ⊢
        by_cases leaf : p.leaf
        · rw [if_pos leaf] at run ⊢
          split at run
          · cases run
          · next found code src _ =>
            have moved : AlikePP R
                { pp with block := { p.seek src with decodeClientData := code } :: stack }
                { isamb := pp'.isamb
                  block := { p.seek src with decodeClientData := code } :: stack
                  scope := pp.scope } :=
              ⟨same.isamb, rfl, rfl⟩
            cases found with
            | some found =>
              cases run
              exact ⟨_, rfl, moved⟩
            | none => exact ih moved run
        · rw [if_neg leaf] at run
          cases run

theorem OpensAlike.ppRead (alike : OpensAlike m R) (same : AlikePP R pp pp') {item : Option Item}
    (run : ppRead m pp = .ok (item, after)) :
    ∃ after', Isamb.ppRead m pp' = .ok (item, after') ∧ AlikePP R after after' := by
  rw [Isamb.ppRead, Isamb.ppForward, alike.maxLevels same.isamb] at run
  exact alike.forwardFrom same run

theorem OpensAlike.ppReadAll (alike : OpensAlike m R) (same : AlikePP R pp pp')
    {items : List Item} (run : ppReadAll m fuel pp = .ok items) :
    ppReadAll m fuel pp' = .ok items := by
  induction fuel generalizing pp pp' items with
  | zero => cases run
  | succ fuel ih =>
    obtain ⟨⟨item, next⟩, read_run, run⟩ := bind_eq_ok run
    obtain ⟨next', read_run', same⟩ := alike.ppRead same read_run
    rw [ppReadAll, read_run']
    cases item with
    | none => exact run
    | some item =>
      obtain ⟨rest, rest_run, done⟩ := bind_eq_ok run
      cases done
      change (ppReadAll m fuel next' >>= _) = _
      rw [ih same rest_run]
      rfl

theorem OpensAlike.reads (alike : OpensAlike m R) (related : R b b') {pos : Nat}
    {items : List Item} (reads : Reads m scope b pos items) : Reads m scope b' pos items := by
  rcases reads with empty | ⟨pp, fuel, pos_ne, open_run, read_run⟩
  · exact Or.inl empty
  · obtain ⟨pp', open_run', same⟩ := alike.ppOpenX related open_run
    exact Or.inr ⟨pp', fuel, pos_ne, open_run', alike.ppReadAll same read_run⟩

end

end Zebra.Isamb
