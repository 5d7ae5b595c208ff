import Zebra.Dfa.Parse
import Zebra.Dfa.PositionSet
import Zebra.Lib.Words

/-!
# Positions of a tree

`dfa_trav`: which positions come first and last in the words of a tree, whether it has the empty
word, and which positions may follow one another.  A tree's language is told by its positions: a
word starts at a first position, goes from each position to one that follows it and ends at a last
one.
-/

namespace Zebra.Dfa

open List Function Language

/-- `followpos` and `posar` of `struct DFA_parse`, and the attributes of a node. -/
structure Trav where
  followpos : Nat → DFASet
  posar : Nat → Int × Int

/-- `nullable`, `firstpos` and `lastpos` of a node. -/
structure Attr where
  nullable : Bool
  firstpos : DFASet
  lastpos : DFASet

def addFollow (s : Trav) (lastpos firstpos : DFASet) : Trav :=
  lastpos.foldl
    (fun s value =>
      let follow := unionDFASet (s.followpos value) firstpos
      { s with followpos := Function.update s.followpos value follow })
    s

@[grind =] def dfaTrav : Tnode → Trav → Attr × Trav
  | .cat p0 p1, s =>
    let (a0, s) := dfaTrav p0 s
    let (a1, s) := dfaTrav p1 s
    let firstpos := unionDFASet mkDFASet a0.firstpos
    let firstpos := if a0.nullable then unionDFASet firstpos a1.firstpos else firstpos
    let lastpos := unionDFASet mkDFASet a1.lastpos
    let lastpos := if a1.nullable then unionDFASet lastpos a0.lastpos else lastpos
    ({ nullable := a0.nullable && a1.nullable, firstpos, lastpos },
      addFollow s a0.lastpos a1.firstpos)
  | .or p0 p1, s =>
    let (a0, s) := dfaTrav p0 s
    let (a1, s) := dfaTrav p1 s
    ({ nullable := a0.nullable || a1.nullable
       firstpos := unionDFASet a0.firstpos a1.firstpos
       lastpos := unionDFASet a0.lastpos a1.lastpos }, s)
  | .plus p0, s =>
    let (a0, s) := dfaTrav p0 s
    (a0, addFollow s a0.lastpos a0.firstpos)
  | .star p0, s =>
    let (a0, s) := dfaTrav p0 s
    ({ a0 with nullable := true }, addFollow s a0.lastpos a0.firstpos)
  | .epsilon, s => ({ nullable := true, firstpos := mkDFASet, lastpos := mkDFASet }, s)
  | .leaf pos ch0 ch1, s =>
    ({ nullable := false
       firstpos := addDFASet mkDFASet pos
       lastpos := addDFASet mkDFASet pos },
      { s with posar := Function.update s.posar pos (ch0, ch1) })

/-- Letters are characters; an accepting leaf takes the number of its rule, negated. -/
abbrev Letter := Int

def Takes (ch : Int × Int) (a : Letter) : Prop :=
  if 0 ≤ ch.1 then ch.1 ≤ a ∧ a ≤ ch.2 else a = ch.1

@[grind =] def Tnode.lang : Tnode → Language Letter
  | .cat p0 p1 => p0.lang * p1.lang
  | .or p0 p1 => p0.lang + p1.lang
  | .star p0 => KStar.kstar p0.lang
  | .plus p0 => p0.lang * KStar.kstar p0.lang
  | .epsilon => 1
  | .leaf _ ch0 ch1 => {w : List Letter | ∃ a, w = [a] ∧ Takes (ch0, ch1) a}

@[grind =] def Tnode.positions : Tnode → List Nat
  | .cat p0 p1 => p0.positions ++ p1.positions
  | .or p0 p1 => p0.positions ++ p1.positions
  | .star p0 => p0.positions
  | .plus p0 => p0.positions
  | .epsilon => []
  | .leaf pos _ _ => [pos]

/-- The attributes of a node, as `dfa_trav` computes them. -/
@[grind =] def Tnode.attr : Tnode → Attr
  | .cat p0 p1 =>
    { nullable := p0.attr.nullable && p1.attr.nullable
      firstpos := if p0.attr.nullable then unionDFASet p0.attr.firstpos p1.attr.firstpos
        else p0.attr.firstpos
      lastpos := if p1.attr.nullable then unionDFASet p1.attr.lastpos p0.attr.lastpos
        else p1.attr.lastpos }
  | .or p0 p1 =>
    { nullable := p0.attr.nullable || p1.attr.nullable
      firstpos := unionDFASet p0.attr.firstpos p1.attr.firstpos
      lastpos := unionDFASet p0.attr.lastpos p1.attr.lastpos }
  | .star p0 => { p0.attr with nullable := true }
  | .plus p0 => p0.attr
  | .epsilon => { nullable := true, firstpos := [], lastpos := [] }
  | .leaf pos _ _ => { nullable := false, firstpos := [pos], lastpos := [pos] }

/-- `q` may follow `p` in a word of the tree. -/
@[grind =] def Tnode.Follow : Tnode → Nat → Nat → Prop
  | .cat p0 p1, p, q =>
    p0.Follow p q ∨ p1.Follow p q ∨ (p ∈ p0.attr.lastpos ∧ q ∈ p1.attr.firstpos)
  | .or p0 p1, p, q => p0.Follow p q ∨ p1.Follow p q
  | .star p0, p, q => p0.Follow p q ∨ (p ∈ p0.attr.lastpos ∧ q ∈ p0.attr.firstpos)
  | .plus p0, p, q => p0.Follow p q ∨ (p ∈ p0.attr.lastpos ∧ q ∈ p0.attr.firstpos)
  | .epsilon, _, _ => False
  | .leaf _ _ _, _, _ => False

/-- The leaf at a position has the range `ch`. -/
def Tnode.At : Tnode → Nat → Int × Int → Prop
  | .cat p0 p1, p, ch => p0.At p ch ∨ p1.At p ch
  | .or p0 p1, p, ch => p0.At p ch ∨ p1.At p ch
  | .star p0, p, ch => p0.At p ch
  | .plus p0, p, ch => p0.At p ch
  | .epsilon, _, _ => False
  | .leaf pos ch0 ch1, p, ch => p = pos ∧ ch = (ch0, ch1)

/-- What may come in a word of the tree behind the position `p`. -/
@[grind =] def Tnode.after : Tnode → Nat → Language Letter
  | .cat p0 p1, p => if p ∈ p0.positions then p0.after p * p1.lang else p1.after p
  | .or p0 p1, p => if p ∈ p0.positions then p0.after p else p1.after p
  | .star p0, p => p0.after p * KStar.kstar p0.lang
  | .plus p0, p => p0.after p * KStar.kstar p0.lang
  | .epsilon, _ => 0
  | .leaf _ _ _, _ => 1

variable {t : Tnode} {p q : Nat} {a : Letter} {w : List Letter}

theorem Tnode.nil_mem_lang (t : Tnode) : [] ∈ t.lang ↔ t.attr.nullable = true := by
  induction t with
  | cat p0 p1 ih0 ih1 => simp [lang, attr, nil_mem_mul, ih0, ih1]
  | or p0 p1 ih0 ih1 => simp [lang, attr, mem_add, ih0, ih1]
  | star p0 ih => simp [lang, attr, nil_mem_kstar]
  | plus p0 ih => simp [lang, attr, nil_mem_mul, nil_mem_kstar, ih]
  | epsilon => simp [lang, attr]
  | leaf pos ch0 ch1 =>
    refine iff_of_false ?_ (by simp [attr])
    rintro ⟨a, eq, -⟩
    simp at eq

theorem Tnode.firstpos_mem (t : Tnode) : ∀ p ∈ t.attr.firstpos, p ∈ t.positions := by
  induction t with
  | cat p0 p1 ih0 ih1 =>
    intro p mem
    simp only [attr] at mem
    split at mem
    · exact mem_append.mpr ((mem_unionDFASet.mp mem).imp (ih0 p) (ih1 p))
    · exact mem_append.mpr (.inl (ih0 p mem))
  | or p0 p1 ih0 ih1 =>
    intro p mem
    exact mem_append.mpr ((mem_unionDFASet.mp mem).imp (ih0 p) (ih1 p))
  | star p0 ih => exact ih
  | plus p0 ih => exact ih
  | epsilon => simp [attr]
  | leaf pos ch0 ch1 => simp [attr, positions]

theorem Tnode.lastpos_mem (t : Tnode) : ∀ p ∈ t.attr.lastpos, p ∈ t.positions := by
  induction t with
  | cat p0 p1 ih0 ih1 =>
    intro p mem
    simp only [attr] at mem
    split at mem
    · exact mem_append.mpr ((mem_unionDFASet.mp mem).symm.imp (ih0 p) (ih1 p))
    · exact mem_append.mpr (.inr (ih1 p mem))
  | or p0 p1 ih0 ih1 =>
    intro p mem
    exact mem_append.mpr ((mem_unionDFASet.mp mem).imp (ih0 p) (ih1 p))
  | star p0 ih => exact ih
  | plus p0 ih => exact ih
  | epsilon => simp [attr]
  | leaf pos ch0 ch1 => simp [attr, positions]

theorem Tnode.At.mem {ch : Int × Int} (at_p : t.At p ch) : p ∈ t.positions := by
  induction t with
  | cat p0 p1 ih0 ih1 => exact mem_append.mpr (at_p.imp ih0 ih1)
  | or p0 p1 ih0 ih1 => exact mem_append.mpr (at_p.imp ih0 ih1)
  | star p0 ih => exact ih at_p
  | plus p0 ih => exact ih at_p
  | epsilon => exact at_p.elim
  | leaf pos ch0 ch1 => exact mem_singleton.mpr at_p.1

theorem Tnode.Follow.mem (follow : t.Follow p q) : p ∈ t.positions ∧ q ∈ t.positions := by
  induction t with
  | cat p0 p1 ih0 ih1 =>
    simp only [positions, mem_append]
    rcases follow with follow | follow | ⟨last, first⟩
    · exact ⟨.inl (ih0 follow).1, .inl (ih0 follow).2⟩
    · exact ⟨.inr (ih1 follow).1, .inr (ih1 follow).2⟩
    · exact ⟨.inl (p0.lastpos_mem p last), .inr (p1.firstpos_mem q first)⟩
  | or p0 p1 ih0 ih1 =>
    simp only [positions, mem_append]
    rcases follow with follow | follow
    · exact ⟨.inl (ih0 follow).1, .inl (ih0 follow).2⟩
    · exact ⟨.inr (ih1 follow).1, .inr (ih1 follow).2⟩
  | star p0 ih | plus p0 ih =>
    rcases follow with follow | ⟨last, first⟩
    · exact ih follow
    · exact ⟨p0.lastpos_mem p last, p0.firstpos_mem q first⟩
  | epsilon => exact follow.elim
  | leaf pos ch0 ch1 => exact follow.elim

def Tnode.LetterAt (t : Tnode) (p : Nat) (a : Letter) : Prop := ∃ ch, t.At p ch ∧ Takes ch a

/-- A position of one of two trees is a position of that one. -/
theorem letterAt_left {p0 p1 : Tnode} (disjoint : List.Disjoint p0.positions p1.positions)
    (mem : p ∈ p0.positions) :
      (∃ ch, (p0.At p ch ∨ p1.At p ch) ∧ Takes ch a) ↔ p0.LetterAt p a := by
  constructor
  · rintro ⟨ch, at_p | at_p, takes⟩
    · exact ⟨ch, at_p, takes⟩
    · exact (disjoint mem at_p.mem).elim
  · rintro ⟨ch, at_p, takes⟩
    exact ⟨ch, .inl at_p, takes⟩

theorem letterAt_right {p0 p1 : Tnode} (disjoint : List.Disjoint p0.positions p1.positions)
    (mem : p ∈ p1.positions) :
      (∃ ch, (p0.At p ch ∨ p1.At p ch) ∧ Takes ch a) ↔ p1.LetterAt p a := by
  constructor
  · rintro ⟨ch, at_p | at_p, takes⟩
    · exact (disjoint at_p.mem mem).elim
    · exact ⟨ch, at_p, takes⟩
  · rintro ⟨ch, at_p, takes⟩
    exact ⟨ch, .inr at_p, takes⟩

/-- A repetition begins with a word of what is repeated. -/
theorem cons_repeat {p0 : Tnode}
    (ih : ∀ u, a :: u ∈ p0.lang ↔ ∃ p ∈ p0.attr.firstpos, p0.LetterAt p a ∧ u ∈ p0.after p) :
    (∃ u v, a :: u ∈ p0.lang ∧ v ∈ KStar.kstar p0.lang ∧ u ++ v = w) ↔
      ∃ p ∈ p0.attr.firstpos, p0.LetterAt p a ∧ w ∈ p0.after p * KStar.kstar p0.lang := by
  constructor
  · rintro ⟨u, v, u_mem, v_mem, rfl⟩
    obtain ⟨p, first, letter, mem⟩ := (ih u).mp u_mem
    exact ⟨p, first, letter, mem_mul.mpr ⟨u, mem, v, v_mem, rfl⟩⟩
  · rintro ⟨p, first, letter, mem⟩
    obtain ⟨u, u_mem, v, v_mem, rfl⟩ := mem_mul.mp mem
    exact ⟨u, v, (ih u).mpr ⟨p, first, letter, u_mem⟩, v_mem, rfl⟩

theorem Tnode.cons_mem_lang (distinct : t.positions.Nodup) :
    a :: w ∈ t.lang ↔ ∃ p ∈ t.attr.firstpos, t.LetterAt p a ∧ w ∈ t.after p := by
  induction t generalizing w with
  | cat p0 p1 ih0 ih1 =>
    obtain ⟨distinct0, distinct1, disjoint⟩ := nodup_append'.mp distinct
    have first_left (p : Nat) (first : p ∈ p0.attr.firstpos) :
        ((cat p0 p1).LetterAt p a ∧ w ∈ (cat p0 p1).after p) ↔
          (p0.LetterAt p a ∧ w ∈ p0.after p * p1.lang) := by
      have mem := p0.firstpos_mem p first
      simp only [after, if_pos mem]
      exact and_congr_left' (letterAt_left disjoint mem)
    have first_right (p : Nat) (first : p ∈ p1.attr.firstpos) :
        ((cat p0 p1).LetterAt p a ∧ w ∈ (cat p0 p1).after p) ↔
          (p1.LetterAt p a ∧ w ∈ p1.after p) := by
      have mem := p1.firstpos_mem p first
      simp only [after, if_neg (disjoint.symm mem)]
      exact and_congr_left' (letterAt_right disjoint mem)
    rw [lang, cons_mem_mul, p0.nil_mem_lang, ih1 distinct1]
    constructor
    · rintro (⟨u, v, u_mem, v_mem, rfl⟩ | ⟨nullable, p, first, letter, mem⟩)
      · obtain ⟨p, first, letter, mem⟩ := (ih0 distinct0).mp u_mem
        refine ⟨p, ?_, (first_left p first).mpr
          ⟨letter, mem_mul.mpr ⟨u, mem, v, v_mem, rfl⟩⟩⟩
        simp only [attr]
        split
        · exact mem_unionDFASet.mpr (.inl first)
        · exact first
      · refine ⟨p, ?_, (first_right p first).mpr ⟨letter, mem⟩⟩
        simp only [attr, nullable, if_true]
        exact mem_unionDFASet.mpr (.inr first)
    · rintro ⟨p, first, letter_mem⟩
      have first : p ∈ p0.attr.firstpos ∨ (p0.attr.nullable = true ∧ p ∈ p1.attr.firstpos) := by
        simp only [attr] at first
        split at first
        · next nullable => exact (mem_unionDFASet.mp first).imp_right fun first => ⟨nullable, first⟩
        · exact .inl first
      rcases first with first | ⟨nullable, first⟩
      · obtain ⟨letter, mem⟩ := (first_left p first).mp letter_mem
        obtain ⟨u, u_mem, v, v_mem, rfl⟩ := mem_mul.mp mem
        exact .inl ⟨u, v, (ih0 distinct0).mpr ⟨p, first, letter, u_mem⟩, v_mem, rfl⟩
      · exact .inr ⟨nullable, p, first, (first_right p first).mp letter_mem⟩
  | or p0 p1 ih0 ih1 =>
    obtain ⟨distinct0, distinct1, disjoint⟩ := nodup_append'.mp distinct
    rw [lang, mem_add, ih0 distinct0, ih1 distinct1]
    constructor
    · rintro (⟨p, first, letter, mem⟩ | ⟨p, first, letter, mem⟩)
      · have pos := p0.firstpos_mem p first
        refine ⟨p, mem_unionDFASet.mpr (.inl first), (letterAt_left disjoint pos).mpr letter, ?_⟩
        simpa only [after, if_pos pos] using mem
      · have pos := p1.firstpos_mem p first
        refine ⟨p, mem_unionDFASet.mpr (.inr first), (letterAt_right disjoint pos).mpr letter, ?_⟩
        simpa only [after, if_neg (disjoint.symm pos)] using mem
    · rintro ⟨p, first, letter, mem⟩
      rcases mem_unionDFASet.mp first with first | first
      · have pos := p0.firstpos_mem p first
        refine .inl ⟨p, first, (letterAt_left disjoint pos).mp letter, ?_⟩
        simpa only [after, if_pos pos] using mem
      · have pos := p1.firstpos_mem p first
        refine .inr ⟨p, first, (letterAt_right disjoint pos).mp letter, ?_⟩
        simpa only [after, if_neg (disjoint.symm pos)] using mem
  | star p0 ih =>
    rw [lang, cons_mem_kstar]
    exact cons_repeat (fun _ => ih distinct)
  | plus p0 ih =>
    rw [lang, mul_kstar_cons]
    exact cons_repeat (fun _ => ih distinct)
  | epsilon => simp [lang, attr]
  | leaf pos ch0 ch1 =>
    constructor
    · rintro ⟨b, eq, takes⟩
      obtain ⟨rfl, rfl⟩ := List.cons.inj eq
      exact ⟨pos, mem_singleton.mpr rfl, ⟨_, ⟨rfl, rfl⟩, takes⟩, rfl⟩
    · rintro ⟨p, -, ⟨ch, ⟨-, rfl⟩, takes⟩, nil⟩
      rw [after, mem_one] at nil
      exact ⟨a, by rw [nil], takes⟩

theorem Tnode.nil_mem_after (distinct : t.positions.Nodup) (mem : p ∈ t.positions) :
    [] ∈ t.after p ↔ p ∈ t.attr.lastpos := by
  induction t with
  | cat p0 p1 ih0 ih1 =>
    obtain ⟨distinct0, distinct1, disjoint⟩ := nodup_append'.mp distinct
    rcases mem_append.mp mem with mem | mem
    · have not_last : p ∉ p1.attr.lastpos := fun last => disjoint mem (p1.lastpos_mem p last)
      rw [after, if_pos mem, nil_mem_mul, ih0 distinct0 mem, p1.nil_mem_lang]
      simp only [attr]
      split <;> simp_all
    · have not_last : p ∉ p0.attr.lastpos := fun last => disjoint (p0.lastpos_mem p last) mem
      rw [after, if_neg (disjoint.symm mem), ih1 distinct1 mem]
      simp only [attr]
      split <;> simp_all
  | or p0 p1 ih0 ih1 =>
    obtain ⟨distinct0, distinct1, disjoint⟩ := nodup_append'.mp distinct
    rcases mem_append.mp mem with mem | mem
    · have not_last : p ∉ p1.attr.lastpos := fun last => disjoint mem (p1.lastpos_mem p last)
      rw [after, if_pos mem, ih0 distinct0 mem, attr, mem_unionDFASet, or_iff_left not_last]
    · have not_last : p ∉ p0.attr.lastpos := fun last => disjoint (p0.lastpos_mem p last) mem
      rw [after, if_neg (disjoint.symm mem), ih1 distinct1 mem, attr, mem_unionDFASet,
        or_iff_right not_last]
  | star p0 ih | plus p0 ih =>
    rw [after, nil_mem_mul, ih distinct mem]
    exact and_iff_left (nil_mem_kstar _)
  | epsilon => simp [positions] at mem
  | leaf pos ch0 ch1 =>
    obtain rfl := mem_singleton.mp mem
    exact iff_of_true rfl (mem_singleton.mpr rfl)

/-- Behind a position within a repetition: on within the same turn, or into the next. -/
theorem cons_after_repeat {p0 : Tnode} (distinct : p0.positions.Nodup) (mem : p ∈ p0.positions)
    (ih : ∀ u, a :: u ∈ p0.after p ↔ ∃ q, p0.Follow p q ∧ p0.LetterAt q a ∧ u ∈ p0.after q) :
    a :: w ∈ p0.after p * KStar.kstar p0.lang ↔
      ∃ q, (p0.Follow p q ∨ (p ∈ p0.attr.lastpos ∧ q ∈ p0.attr.firstpos)) ∧ p0.LetterAt q a ∧
        w ∈ p0.after q * KStar.kstar p0.lang := by
  rw [cons_mem_mul, p0.nil_mem_after distinct mem, cons_mem_kstar,
    cons_repeat (fun _ => p0.cons_mem_lang distinct)]
  constructor
  · rintro (⟨u, v, u_mem, v_mem, rfl⟩ | ⟨last, q, first, letter, mem⟩)
    · obtain ⟨q, follow, letter, mem⟩ := (ih u).mp u_mem
      exact ⟨q, .inl follow, letter, mem_mul.mpr ⟨u, mem, v, v_mem, rfl⟩⟩
    · exact ⟨q, .inr ⟨last, first⟩, letter, mem⟩
  · rintro ⟨q, follow | ⟨last, first⟩, letter, mem⟩
    · obtain ⟨u, u_mem, v, v_mem, rfl⟩ := mem_mul.mp mem
      exact .inl ⟨u, v, (ih u).mpr ⟨q, follow, letter, u_mem⟩, v_mem, rfl⟩
    · exact .inr ⟨last, q, first, letter, mem⟩

/-- Behind a position comes a letter of one that may follow it. -/
theorem Tnode.cons_mem_after (distinct : t.positions.Nodup) (mem : p ∈ t.positions) :
    a :: w ∈ t.after p ↔ ∃ q, t.Follow p q ∧ t.LetterAt q a ∧ w ∈ t.after q := by
  induction t generalizing w with
  | cat p0 p1 ih0 ih1 =>
    obtain ⟨distinct0, distinct1, disjoint⟩ := nodup_append'.mp distinct
    rcases mem_append.mp mem with mem | mem
    · have not_in := disjoint mem
      rw [after, if_pos mem, cons_mem_mul, p0.nil_mem_after distinct0 mem,
        p1.cons_mem_lang distinct1]
      constructor
      · rintro (⟨u, v, u_mem, v_mem, rfl⟩ | ⟨last, q, first, letter, mem⟩)
        · obtain ⟨q, follow, letter, mem⟩ := (ih0 distinct0 mem).mp u_mem
          have pos := follow.mem.2
          refine ⟨q, .inl follow, (letterAt_left disjoint pos).mpr letter, ?_⟩
          rw [after, if_pos pos]
          exact mem_mul.mpr ⟨u, mem, v, v_mem, rfl⟩
        · have pos := p1.firstpos_mem q first
          refine ⟨q, .inr (.inr ⟨last, first⟩), (letterAt_right disjoint pos).mpr letter, ?_⟩
          rwa [after, if_neg (disjoint.symm pos)]
      · rintro ⟨q, follow | follow | ⟨last, first⟩, letter, mem_after⟩
        · have pos := follow.mem.2
          rw [after, if_pos pos] at mem_after
          obtain ⟨u, u_mem, v, v_mem, rfl⟩ := mem_mul.mp mem_after
          exact .inl ⟨u, v, (ih0 distinct0 mem).mpr
            ⟨q, follow, (letterAt_left disjoint pos).mp letter, u_mem⟩, v_mem, rfl⟩
        · exact (not_in follow.mem.1).elim
        · have pos := p1.firstpos_mem q first
          rw [after, if_neg (disjoint.symm pos)] at mem_after
          exact .inr ⟨last, q, first, (letterAt_right disjoint pos).mp letter, mem_after⟩
    · have not_in := disjoint.symm mem
      rw [after, if_neg not_in, ih1 distinct1 mem]
      constructor
      · rintro ⟨q, follow, letter, mem_after⟩
        have pos := follow.mem.2
        refine ⟨q, .inr (.inl follow), (letterAt_right disjoint pos).mpr letter, ?_⟩
        rwa [after, if_neg (disjoint.symm pos)]
      · rintro ⟨q, follow | follow | ⟨last, first⟩, letter, mem_after⟩
        · exact (not_in follow.mem.1).elim
        · have pos := follow.mem.2
          rw [after, if_neg (disjoint.symm pos)] at mem_after
          exact ⟨q, follow, (letterAt_right disjoint pos).mp letter, mem_after⟩
        · exact (not_in (p0.lastpos_mem p last)).elim
  | or p0 p1 ih0 ih1 =>
    obtain ⟨distinct0, distinct1, disjoint⟩ := nodup_append'.mp distinct
    rcases mem_append.mp mem with mem | mem
    · have not_in := disjoint mem
      rw [after, if_pos mem, ih0 distinct0 mem]
      constructor
      · rintro ⟨q, follow, letter, mem_after⟩
        have pos := follow.mem.2
        refine ⟨q, .inl follow, (letterAt_left disjoint pos).mpr letter, ?_⟩
        rwa [after, if_pos pos]
      · rintro ⟨q, follow | follow, letter, mem_after⟩
        · have pos := follow.mem.2
          rw [after, if_pos pos] at mem_after
          exact ⟨q, follow, (letterAt_left disjoint pos).mp letter, mem_after⟩
        · exact (not_in follow.mem.1).elim
    · have not_in := disjoint.symm mem
      rw [after, if_neg not_in, ih1 distinct1 mem]
      constructor
      · rintro ⟨q, follow, letter, mem_after⟩
        have pos := follow.mem.2
        refine ⟨q, .inr follow, (letterAt_right disjoint pos).mpr letter, ?_⟩
        rwa [after, if_neg (disjoint.symm pos)]
      · rintro ⟨q, follow | follow, letter, mem_after⟩
        · exact (not_in follow.mem.1).elim
        · have pos := follow.mem.2
          rw [after, if_neg (disjoint.symm pos)] at mem_after
          exact ⟨q, follow, (letterAt_right disjoint pos).mp letter, mem_after⟩
  | star p0 ih | plus p0 ih => exact cons_after_repeat distinct mem fun _ => ih distinct mem
  | epsilon => simp [positions] at mem
  | leaf pos ch0 ch1 =>
    refine iff_of_false ?_ ?_
    · simp [after]
    · rintro ⟨q, follow, -⟩
      exact follow

theorem addFollow_posar (s : Trav) (lastpos firstpos : DFASet) :
    (addFollow s lastpos firstpos).posar = s.posar := by
  induction lastpos generalizing s with
  | nil => rfl
  | cons value lastpos ih => exact ih _

theorem mem_addFollow (s : Trav) (lastpos firstpos : DFASet) :
    q ∈ (addFollow s lastpos firstpos).followpos p ↔
      q ∈ s.followpos p ∨ (p ∈ lastpos ∧ q ∈ firstpos) := by
  induction lastpos generalizing s with
  | nil => simp [addFollow]
  | cons value lastpos ih =>
    refine (ih _).trans ?_
    by_cases same : p = value
    · subst same
      simp only [update_self, mem_unionDFASet, mem_cons, true_or, true_and]
      tauto
    · simp only [update_of_ne same, mem_cons, same, false_or]

theorem addFollow_ascending {s : Trav} {lastpos firstpos : DFASet}
    (ascending : ∀ p, Ascending (s.followpos p)) (first : Ascending firstpos) :
    ∀ p, Ascending ((addFollow s lastpos firstpos).followpos p) := by
  induction lastpos generalizing s with
  | nil => exact ascending
  | cons value lastpos ih =>
    refine ih fun p => ?_
    by_cases same : p = value
    · subst same
      simpa only [update_self] using (ascending p).unionDFASet first
    · simpa only [update_of_ne same] using ascending p

theorem dfaTrav_attr (t : Tnode) (s : Trav) : (dfaTrav t s).1 = t.attr := by
  induction t generalizing s with
  | cat p0 p1 ih0 ih1 => simp [dfaTrav, Tnode.attr, ih0, ih1, mkDFASet]
  | or p0 p1 ih0 ih1 => simp [dfaTrav, Tnode.attr, ih0, ih1]
  | star p0 ih => simp [dfaTrav, Tnode.attr, ih]
  | plus p0 ih => simp [dfaTrav, Tnode.attr, ih]
  | epsilon => rfl
  | leaf pos ch0 ch1 => rfl

/-- `followpos` gets all pairs of positions that may follow one another. -/
theorem mem_dfaTrav (t : Tnode) (s : Trav) :
    q ∈ (dfaTrav t s).2.followpos p ↔ q ∈ s.followpos p ∨ t.Follow p q := by
  induction t generalizing s with
  | cat p0 p1 ih0 ih1 =>
    simp only [dfaTrav, mem_addFollow, ih0, ih1, dfaTrav_attr, Tnode.Follow]
    tauto
  | or p0 p1 ih0 ih1 =>
    simp only [dfaTrav, ih0, ih1, Tnode.Follow]
    tauto
  | star p0 ih | plus p0 ih =>
    simp only [dfaTrav, mem_addFollow, ih, dfaTrav_attr, Tnode.Follow]
    tauto
  | epsilon => simp [dfaTrav, Tnode.Follow]
  | leaf pos ch0 ch1 => simp [dfaTrav, Tnode.Follow]

theorem dfaTrav_posar_of_not_mem (t : Tnode) (s : Trav) (not_mem : p ∉ t.positions) :
    (dfaTrav t s).2.posar p = s.posar p := by
  induction t generalizing s with
  | cat p0 p1 ih0 ih1 =>
    obtain ⟨not_mem0, not_mem1⟩ := not_or.mp (mt mem_append.mpr not_mem)
    simp only [dfaTrav, addFollow_posar, ih0 _ not_mem0, ih1 _ not_mem1]
  | or p0 p1 ih0 ih1 =>
    obtain ⟨not_mem0, not_mem1⟩ := not_or.mp (mt mem_append.mpr not_mem)
    simp only [dfaTrav, ih0 _ not_mem0, ih1 _ not_mem1]
  | star p0 ih | plus p0 ih => simpa only [dfaTrav, addFollow_posar] using ih s not_mem
  | epsilon => rfl
  | leaf pos ch0 ch1 => exact update_of_ne (by simpa [Tnode.positions] using not_mem) _ _

/-- `posar` gets the range at every position. -/
theorem dfaTrav_posar {t : Tnode} (distinct : t.positions.Nodup) (s : Trav) {ch : Int × Int}
    (at_p : t.At p ch) : (dfaTrav t s).2.posar p = ch := by
  induction t generalizing s with
  | cat p0 p1 ih0 ih1 =>
    obtain ⟨distinct0, distinct1, disjoint⟩ := nodup_append'.mp distinct
    simp only [dfaTrav, addFollow_posar]
    rcases at_p with at_p | at_p
    · rw [dfaTrav_posar_of_not_mem p1 _ (disjoint at_p.mem), ih0 distinct0 s at_p]
    · exact ih1 distinct1 _ at_p
  | or p0 p1 ih0 ih1 =>
    obtain ⟨distinct0, distinct1, disjoint⟩ := nodup_append'.mp distinct
    simp only [dfaTrav]
    rcases at_p with at_p | at_p
    · rw [dfaTrav_posar_of_not_mem p1 _ (disjoint at_p.mem), ih0 distinct0 s at_p]
    · exact ih1 distinct1 _ at_p
  | star p0 ih | plus p0 ih => simpa only [dfaTrav, addFollow_posar] using ih distinct s at_p
  | epsilon => exact at_p.elim
  | leaf pos ch0 ch1 =>
    obtain ⟨rfl, rfl⟩ := at_p
    exact update_self _ _ _

theorem Tnode.attr_ascending (t : Tnode) :
    Ascending t.attr.firstpos ∧ Ascending t.attr.lastpos := by
  induction t with
  | cat p0 p1 ih0 ih1 =>
    simp only [attr]
    constructor
    · split
      · exact ih0.1.unionDFASet ih1.1
      · exact ih0.1
    · split
      · exact ih1.2.unionDFASet ih0.2
      · exact ih1.2
  | or p0 p1 ih0 ih1 => exact ⟨ih0.1.unionDFASet ih1.1, ih0.2.unionDFASet ih1.2⟩
  | star p0 ih => exact ih
  | plus p0 ih => exact ih
  | epsilon => exact ⟨.nil, .nil⟩
  | leaf pos ch0 ch1 => exact ⟨pairwise_singleton _ _, pairwise_singleton _ _⟩

theorem dfaTrav_ascending (t : Tnode) {s : Trav} (ascending : ∀ p, Ascending (s.followpos p)) :
    ∀ p, Ascending ((dfaTrav t s).2.followpos p) := by
  induction t generalizing s with
  | cat p0 p1 ih0 ih1 =>
    simp only [dfaTrav, dfaTrav_attr]
    exact addFollow_ascending (ih1 (ih0 ascending)) p1.attr_ascending.1
  | or p0 p1 ih0 ih1 => exact ih1 (ih0 ascending)
  | star p0 ih | plus p0 ih =>
    simp only [dfaTrav, dfaTrav_attr]
    exact addFollow_ascending (ih ascending) p0.attr_ascending.1
  | epsilon => exact ascending
  | leaf pos ch0 ch1 => exact ascending

end Zebra.Dfa
