import Mathlib.Data.Finset.Powerset
import Zebra.Dfa.Compiler
import Zebra.Dfa.Unambiguous

/-!
# Several rules in one automaton

`dfa_parse` for one pattern after the other, and `dfa_mkstate`: which rule a state reports, and
which one without `^`.
-/

namespace Zebra.Dfa

open List Prod

/-- `dfa_parse`: the tree for the patterns so far, and that of one more -/
def dfaParse (fuel : Nat) (root : Option Tnode) (p : DfaParse) (pattern : List Byte) :
    Option (Except DfaErr Tnode × DfaParse) := do
  let (top, p) ← doParse fuel p pattern
  match top, root with
  | .error err, _ => some (.error err, p)
  | .ok top, none => some (.ok top, p)
  | .ok top, some root => some (.ok (.or root top), p)

/-- Calls of `dfa_parse` that succeed, one for each pattern -/
inductive Parses (start : DfaParse) : List (List Byte) → DfaParse → Option Tnode → Prop
  | nil : Parses start [] start none
  | concat {patterns p root pattern fuel root' p'} : Parses start patterns p root →
      CString pattern → dfaParse fuel root p pattern = some (.ok root', p') →
      Parses start (patterns ++ [pattern]) p' (some root')

/-- A rule: whether it has a `^`, and its words -/
structure Rule where
  anchored : Bool
  lang : Language Letter

/-- The rule of a pattern; a pattern with an empty class has no words of its own. -/
def Rule.Of (anyset : BSet) (pattern : List Byte) (rule : Rule) : Prop :=
  ∃ toks, Tokens false pattern (if rule.anchored then .op .startAnchor :: toks else toks) ∧
    (Inhabited toks → PatternLang anyset toks rule.lang)

/-- `n` is the smallest number of a rule that `has` holds of, or 0 if there is none. -/
def Smallest (rules : List Rule) (has : Rule → Prop) (n : Int) : Prop :=
  (n = 0 ∧ ∀ (i : Nat) (rule : Rule), rules[i]? = some rule → ¬has rule) ∨
    ∃ (i : Nat) (rule : Rule), rules[i]? = some rule ∧ has rule ∧ n = (i + 1 : Nat) ∧
      ∀ (i' : Nat) (rule' : Rule), rules[i']? = some rule' → has rule' → i ≤ i'

/-- `rule_no` and `rule_nno` of the state that a word leads to, or 0 -/
def ruleNos (states : List DfaState) (w : List Letter) : Int × Int :=
  ((runTo states 0 w).map fun state => (state.ruleNo, state.ruleNno)).getD (0, 0)

/-- The state reports the smallest number of a rule, and of a rule without `^`. -/
def ReportsRight (rules : List Rule) (states : List DfaState) (w : List Letter) : Prop :=
  Smallest rules (fun rule => w ∈ rule.lang) (ruleNos states w).1 ∧
    Smallest rules (fun rule => rule.anchored = false ∧ w ∈ rule.lang) (ruleNos states w).2

/-- No rule without `^` comes before a rule with one that has the same word. -/
def InOrder (rules : List Rule) (w : List Letter) : Prop :=
  ∀ (i : Nat) (rule : Rule) (i' : Nat) (rule' : Rule), rules[i]? = some rule →
    rules[i']? = some rule' → w ∈ rule.lang → w ∈ rule'.lang → rule.anchored = false →
      rule'.anchored = true → i' < i

def mark (i : Nat) (rule : Rule) : Int × Int :=
  (-(i + 1 : Nat), if rule.anchored then 0 else -(i + 1 : Nat))

variable {rules : List Rule} {posar : Nat → Int × Int} {set : DFASet} {i : Nat} {rule : Rule}

def Held (rules : List Rule) (posar : Nat → Int × Int) (set : DFASet) (i : Nat)
    (rule : Rule) : Prop :=
  rules[i]? = some rule ∧ ∃ p ∈ set, posar p = mark i rule

def InRuleOrder (rules : List Rule) (posar : Nat → Int × Int) (set : DFASet) : Prop :=
  set.Pairwise fun p q => ∀ i rule i' rule', rules[i]? = some rule → rules[i']? = some rule' →
    posar p = mark i rule → posar q = mark i' rule' → i < i'

theorem held_concat {p : Nat} : Held rules posar (set ++ [p]) i rule ↔
    Held rules posar set i rule ∨ (rules[i]? = some rule ∧ posar p = mark i rule) := by
  simp only [Held, mem_append, mem_singleton, or_and_right, exists_or, exists_eq_left,
    and_or_left]

/-- A rule of those met is the only one at its number. -/
theorem eq_of_mark {i' : Nat} {rule' : Rule} (get : rules[i]? = some rule)
    (get' : rules[i']? = some rule') (same : mark i rule = mark i' rule') :
      i = i' ∧ rule = rule' := by
  have number : (-(i + 1 : Nat) : Int) = -(i' + 1 : Nat) := congrArg fst same
  obtain rfl : i = i' := by omega
  exact ⟨rfl, Option.some.inj (get.symm.trans get')⟩

/-- What the loop has in `i` when it has looked at some positions: the first rule of them -/
def FirstHeld (rules : List Rule) (posar : Nat → Int × Int) (set : DFASet) (n : Int) : Prop :=
  (n = 0 ∧ ∀ i rule, ¬Held rules posar set i rule) ∨
    ∃ i rule, Held rules posar set i rule ∧ n = -(i + 1 : Nat) ∧
      ∀ i' rule', Held rules posar set i' rule' → i ≤ i'

/-- What it has in `j`: the first rule without `^` behind the last one with it -/
def FirstFree (rules : List Rule) (posar : Nat → Int × Int) (set : DFASet) (n : Int) : Prop :=
  (n = 0 ∧ ∀ i rule, Held rules posar set i rule → rule.anchored = false →
      ∃ i' rule', Held rules posar set i' rule' ∧ rule'.anchored = true ∧ i < i') ∨
    ∃ i rule, Held rules posar set i rule ∧ rule.anchored = false ∧ n = -(i + 1 : Nat) ∧
      (∀ i' rule', Held rules posar set i' rule' → rule'.anchored = true → i' < i) ∧
      ∀ i' rule', Held rules posar set i' rule' → rule'.anchored = false → i' < i →
        ∃ i'' rule'', Held rules posar set i'' rule'' ∧ rule''.anchored = true ∧ i' < i''

/-- The loop of `mk_dfa_tran` over the positions of a state -/
theorem rules_spec (marked : ∀ p ∈ set, 0 ≤ (posar p).1 ∨
      ∃ i rule, rules[i]? = some rule ∧ posar p = mark i rule)
    (order : InRuleOrder rules posar set) :
    FirstHeld rules posar set (Dfa.rules posar set).1 ∧
      FirstFree rules posar set (Dfa.rules posar set).2 := by
  refine foldl_invariant (fun checked (ij : Int × Int) => InRuleOrder rules posar checked →
    FirstHeld rules posar checked ij.1 ∧ FirstFree rules posar checked ij.2) ?_ ?_ order
  · have nothing (i : Nat) (rule : Rule) : ¬Held rules posar [] i rule :=
      fun held => not_mem_nil held.2.choose_spec.1
    exact fun _ => ⟨.inl ⟨rfl, nothing⟩,
      .inl ⟨rfl, fun i rule held => absurd held (nothing i rule)⟩⟩
  rintro checked ⟨first, free⟩ p p_mem ih ordered
  obtain ⟨before, -, behind⟩ := pairwise_append.mp ordered
  obtain ⟨firstHeld, firstFree⟩ := ih before
  rcases marked p p_mem with char | ⟨n, own, get, posar_eq⟩
  · -- a position of characters is that of no rule
    have same (i : Nat) (rule : Rule) :
        Held rules posar (checked ++ [p]) i rule ↔ Held rules posar checked i rule := by
      rw [held_concat, or_iff_left]
      rintro ⟨-, eq⟩
      have number := congrArg fst eq
      dsimp only [mark] at number
      omega
    simp only [FirstHeld, FirstFree, same, if_neg (not_lt.mpr char)]
    exact ⟨firstHeld, firstFree⟩
  · have new : Held rules posar (checked ++ [p]) n own := held_concat.mpr (.inr ⟨get, posar_eq⟩)
    have old {i : Nat} {rule : Rule} (held : Held rules posar checked i rule) :
        Held rules posar (checked ++ [p]) i rule := held_concat.mpr (.inl held)
    have earlier {i : Nat} {rule : Rule} (held : Held rules posar checked i rule) : i < n := by
      obtain ⟨get', q, q_mem, q_eq⟩ := held
      exact behind q q_mem p (mem_singleton_self p) i rule n own get' get q_eq posar_eq
    have cases {i : Nat} {rule : Rule} (held : Held rules posar (checked ++ [p]) i rule) :
        (Held rules posar checked i rule ∧ i < n) ∨ (i = n ∧ rule = own) := by
      rcases held_concat.mp held with held | ⟨get', eq⟩
      · exact .inl ⟨held, earlier held⟩
      · exact .inr (eq_of_mark get' get (eq.symm.trans posar_eq))
    have neg : (posar p).1 < 0 := by
      rw [posar_eq]
      dsimp only [mark]
      omega
    rw [if_pos neg, posar_eq]
    change FirstHeld rules posar (checked ++ [p])
        (if first = 0 ∨ (-(n + 1 : Nat) : Int) > first then (-(n + 1 : Nat) : Int) else first) ∧
      FirstFree rules posar (checked ++ [p])
        (if free = 0 ∨ (mark n own).2 > free then (mark n own).2 else free)
    dsimp only at firstHeld firstFree
    constructor
    · rcases firstHeld with ⟨rfl, none⟩ | ⟨i, rule, held, rfl, least⟩
      · simp only [true_or, if_true]
        refine .inr ⟨n, own, new, rfl, fun i' rule' held => ?_⟩
        rcases cases held with ⟨held, -⟩ | ⟨rfl, -⟩
        · exact absurd held (none i' rule')
        · exact le_refl _
      · have lt := earlier held
        rw [if_neg (by omega)]
        refine .inr ⟨i, rule, old held, rfl, fun i' rule' held' => ?_⟩
        rcases cases held' with ⟨held', -⟩ | ⟨rfl, -⟩
        · exact least i' rule' held'
        · exact lt.le
    · cases anchored : own.anchored with
      | true =>
        rw [show (mark n own).2 = 0 from if_pos anchored]
        refine .inl ⟨?_, fun i rule held isFree => ?_⟩
        · rcases firstFree with ⟨rfl, -⟩ | ⟨i, rule, -, -, rfl, -⟩
          · rfl
          · exact if_pos (.inr (by omega))
        · rcases cases held with ⟨-, lt⟩ | ⟨-, rfl⟩
          · exact ⟨n, own, new, anchored, lt⟩
          · exact absurd (isFree.symm.trans anchored) (by decide)
      | false =>
        rw [show (mark n own).2 = -(n + 1 : Nat) from if_neg (by simp [anchored])]
        have last {i : Nat} {rule : Rule} (held : Held rules posar (checked ++ [p]) i rule)
            (isAnchored : rule.anchored = true) : Held rules posar checked i rule ∧ i < n := by
          refine (cases held).resolve_right ?_
          rintro ⟨-, rfl⟩
          exact absurd (isAnchored.symm.trans anchored) (by decide)
        rcases firstFree with ⟨rfl, none⟩ | ⟨i, rule, held, isFree, rfl, above, least⟩
        · simp only [true_or, if_true]
          refine .inr ⟨n, own, new, anchored, rfl, fun i' rule' held isAnchored =>
            (last held isAnchored).2, fun i' rule' held isFree lt => ?_⟩
          have held := ((cases held).resolve_right fun eq => absurd eq.1 lt.ne).1
          obtain ⟨i'', rule'', held'', isAnchored, lt'⟩ := none i' rule' held isFree
          exact ⟨i'', rule'', old held'', isAnchored, lt'⟩
        · have lt := earlier held
          rw [if_neg (by simp; omega)]
          refine .inr ⟨i, rule, old held, isFree, rfl, fun i' rule' held' isAnchored =>
            above i' rule' (last held' isAnchored).1 isAnchored,
              fun i' rule' held' isFree' lt' => ?_⟩
          have held' := ((cases held').resolve_right fun eq => by omega).1
          obtain ⟨i'', rule'', held'', isAnchored, lt''⟩ := least i' rule' held' isFree' lt'
          exact ⟨i'', rule'', old held'', isAnchored, lt''⟩

theorem FirstHeld.smallest {w : List Letter} {n : Int} (first : FirstHeld rules posar set n)
    (held_iff : ∀ i rule, Held rules posar set i rule ↔ rules[i]? = some rule ∧ w ∈ rule.lang) :
    Smallest rules (fun rule => w ∈ rule.lang) (-n) := by
  simp only [FirstHeld, held_iff] at first
  rcases first with ⟨rfl, none⟩ | ⟨i, rule, ⟨get, mem⟩, rfl, least⟩
  · exact .inl ⟨rfl, fun i rule get mem => none i rule ⟨get, mem⟩⟩
  · exact .inr ⟨i, rule, get, mem, Int.neg_neg _,
      fun i' rule' get' mem' => least i' rule' ⟨get', mem'⟩⟩

/-- The number for inside of lines is right if and only if the rules are in order. -/
theorem FirstFree.smallest_iff {w : List Letter} {n : Int} (free : FirstFree rules posar set n)
    (held_iff : ∀ i rule, Held rules posar set i rule ↔ rules[i]? = some rule ∧ w ∈ rule.lang) :
    Smallest rules (fun rule => rule.anchored = false ∧ w ∈ rule.lang) (-n) ↔ InOrder rules w := by
  simp only [FirstFree, held_iff] at free
  rcases free with ⟨rfl, none⟩ | ⟨k, own, ⟨get, mem⟩, isFree, rfl, above, least⟩
  · constructor
    · rintro (⟨-, none'⟩ | ⟨i, rule, get, _, number, -⟩)
      · exact fun i rule i' rule' get _ mem _ isFree _ => absurd ⟨isFree, mem⟩ (none' i rule get)
      · omega
    · refine fun inOrder => .inl ⟨rfl, ?_⟩
      rintro i rule get ⟨isFree, mem⟩
      obtain ⟨i', rule', ⟨get', mem'⟩, isAnchored, lt⟩ := none i rule ⟨get, mem⟩ isFree
      exact absurd (inOrder i rule i' rule' get get' mem mem' isFree isAnchored) lt.not_gt
  · constructor
    · rintro (⟨zero, -⟩ | ⟨i, rule, _, _, number, least'⟩)
      · omega
      · intro i' rule' i'' rule'' get' get'' mem' mem'' isFree' isAnchored
        have le := least' i' rule' get' ⟨isFree', mem'⟩
        have lt := above i'' rule'' ⟨get'', mem''⟩ isAnchored
        omega
    · refine fun inOrder => .inr ⟨k, own, get, ⟨isFree, mem⟩, Int.neg_neg _, ?_⟩
      rintro i' rule' get' ⟨isFree', mem'⟩
      by_contra lt
      obtain ⟨i'', rule'', ⟨get'', mem''⟩, isAnchored, lt'⟩ :=
        least i' rule' ⟨get', mem'⟩ isFree' (not_le.mp lt)
      exact absurd (inOrder i' rule' i'' rule'' get' get'' mem' mem'' isFree' isAnchored) lt'.not_gt

/-- A tree that patterns have become, with positions up to `hi` -/
structure Ruled (root : Tnode) (rules : List Rule) (hi : Nat) : Prop where
  rooted : Rooted root
  within : ∀ p ∈ root.positions, p ≤ hi
  not_nullable : root.attr.nullable = false
  marks : ∀ p ch, root.At p ch → ch.1 < 0 →
    ∃ (i : Nat) (rule : Rule), rules[i]? = some rule ∧ ch = mark i rule
  ordered : ∀ p q i rule i' rule', root.At p (mark i rule) → root.At q (mark i' rule') →
    p < q → i < i'
  lang : ∀ w a, a < 0 → (w ++ [a] ∈ root.lang ↔
    ∃ (i : Nat) (rule : Rule), rules[i]? = some rule ∧ a = -(i + 1 : Nat) ∧ w ∈ rule.lang)

variable {p p' : DfaParse} {anchored : Bool} {t1 top : Tnode}

/-- A leaf of a rule in the tree of one pattern is the one at its end. -/
theorem RuleParsed.at_neg
    (parsed : RuleParsed p anchored t1 top p') {q : Nat} {ch : Int × Int} (at_q : top.At q ch)
    (neg : ch.1 < 0) : q = p'.position ∧ ch = mark p.rule ⟨anchored, t1.lang⟩ := by
  rw [parsed.root_eq] at at_q
  rcases at_q with at_q | ⟨rfl, rfl⟩
  · have char := (parsed.ready.ranges q ch at_q).1
    omega
  · exact ⟨rfl, rfl⟩

theorem RuleParsed.lang (parsed : RuleParsed p anchored t1 top p') (w : List Letter) (a : Letter) :
    w ++ [a] ∈ top.lang ↔ a = -(p.rule + 1 : Nat) ∧ w ∈ t1.lang := by
  have accepting := parsed.ready.accepting
  rw [parsed.root_eq]
  constructor
  · intro mem
    obtain ⟨u, -, v, ⟨b, rfl, takes⟩, eq⟩ := id mem
    rw [Takes, if_neg (not_le.mpr accepting)] at takes
    obtain ⟨-, same⟩ := append_inj' eq rfl
    obtain rfl : a = -(p.rule + 1 : Nat) := (List.cons.inj same).1.symm.trans takes
    exact ⟨rfl, (concat_mem_rootOf accepting).mp mem⟩
  · rintro ⟨rfl, mem⟩
    exact (concat_mem_rootOf accepting).mpr mem

theorem RuleParsed.within (parsed : RuleParsed p anchored t1 top p') :
    ∀ q ∈ top.positions, p.position < q ∧ q ≤ p'.position := by
  obtain ⟨hi, position, numbered⟩ := parsed.numbered
  rw [parsed.root_eq]
  intro q mem
  have le := numbered.le
  rcases mem_append.mp mem with mem | mem
  · have within := numbered.within q mem
    omega
  · rw [mem_singleton.mp mem]
    omega

theorem Ruled.first (zero : p.rule = 0)
    (parsed : RuleParsed p anchored t1 top p') : Ruled top [⟨anchored, t1.lang⟩] p'.position where
  rooted := by
    have rooted := parsed.ready.rooted
    rwa [← parsed.root_eq] at rooted
  within q mem := (parsed.within q mem).2
  not_nullable := by simp [parsed.root_eq, rootOf, Tnode.attr]
  marks q ch at_q neg := ⟨0, _, rfl, zero ▸ (parsed.at_neg at_q neg).2⟩
  ordered q q' i rule i' rule' at_q at_q' lt := by
    have same := (parsed.at_neg at_q (by simp [mark]; omega)).1
    have same' := (parsed.at_neg at_q' (by simp [mark]; omega)).1
    omega
  lang w a _ := by
    rw [parsed.lang, zero]
    constructor
    · rintro ⟨rfl, mem⟩
      exact ⟨0, _, rfl, rfl, mem⟩
    · rintro ⟨i, rule, get, rfl, mem⟩
      obtain ⟨rfl, rfl⟩ : i = 0 ∧ ⟨anchored, t1.lang⟩ = rule := by
        rw [getElem?_singleton] at get
        split at get
        · next eq => exact ⟨eq, Option.some.inj get⟩
        · cases get
      exact ⟨rfl, mem⟩

theorem Ruled.concat {root : Tnode} {p p' : DfaParse} {anchored : Bool} {t1 top : Tnode}
    (ruled : Ruled root rules p.position) (number : p.rule = rules.length)
    (parsed : RuleParsed p anchored t1 top p') :
    Ruled (.or root top) (rules ++ [⟨anchored, t1.lang⟩]) p'.position := by
  have own := parsed.ready.rooted
  rw [← parsed.root_eq] at own
  have later {i : Nat} {rule : Rule} (get : rules[i]? = some rule) :
      (rules ++ [⟨anchored, t1.lang⟩])[i]? = some rule :=
    (getElem?_append_left (List.getElem?_eq_some_iff.mp get).1).trans get
  have last : (rules ++ [(⟨anchored, t1.lang⟩ : Rule)])[p.rule]? = some ⟨anchored, t1.lang⟩ := by
    rw [number, getElem?_concat_length]
  have known {q i : Nat} {rule : Rule} (at_q : root.At q (mark i rule)) : i < p.rule := by
    obtain ⟨i', rule', get, same⟩ := ruled.marks q _ at_q (by simp [mark]; omega)
    have lt := (List.getElem?_eq_some_iff.mp get).1
    have eq : (-(i + 1 : Nat) : Int) = -(i' + 1 : Nat) := congrArg fst same
    omega
  have new {q i : Nat} {rule : Rule} (at_q : top.At q (mark i rule)) :
      i = p.rule ∧ q = p'.position := by
    obtain ⟨place, same⟩ := parsed.at_neg at_q (by simp [mark]; omega)
    have eq : (-(i + 1 : Nat) : Int) = -(p.rule + 1 : Nat) := congrArg fst same
    exact ⟨by omega, place⟩
  refine ⟨⟨?_, ?_⟩, ?_, ?_, ?_, ?_, ?_⟩
  · refine nodup_append'.mpr ⟨ruled.rooted.distinct, own.distinct, fun q mem mem' => ?_⟩
    have le := ruled.within q mem
    have lt := (parsed.within q mem').1
    omega
  · rintro q ch (at_q | at_q)
    · refine (ruled.rooted.leaves q ch at_q).imp_right fun rule => ⟨rule.1, ?_⟩
      rw [Tnode.after, if_pos at_q.mem]
      exact rule.2
    · refine (own.leaves q ch at_q).imp_right fun rule => ⟨rule.1, ?_⟩
      have lt := (parsed.within q at_q.mem).1
      rw [Tnode.after, if_neg fun mem => absurd (ruled.within q mem) (not_le.mpr lt)]
      exact rule.2
  · intro q mem
    rcases mem_append.mp mem with mem | mem
    · obtain ⟨hi, position, numbered⟩ := parsed.numbered
      have le := ruled.within q mem
      have le' := numbered.le
      omega
    · exact (parsed.within q mem).2
  · simp [Tnode.attr, ruled.not_nullable, parsed.root_eq, rootOf]
  · rintro q ch (at_q | at_q) neg
    · obtain ⟨i, rule, get, eq⟩ := ruled.marks q ch at_q neg
      exact ⟨i, rule, later get, eq⟩
    · exact ⟨p.rule, _, last, (parsed.at_neg at_q neg).2⟩
  · rintro q q' i rule i' rule' (at_q | at_q) (at_q' | at_q') lt
    · exact ruled.ordered q q' i rule i' rule' at_q at_q' lt
    · exact (new at_q').1 ▸ known at_q
    · have le := ruled.within q' at_q'.mem
      have lt' := (parsed.within q at_q.mem).1
      omega
    · have eq := (new at_q).2.trans (new at_q').2.symm
      omega
  · intro w a neg
    rw [Tnode.lang, Language.mem_add, ruled.lang w a neg, parsed.lang]
    constructor
    · rintro (⟨i, rule, get, eq, mem⟩ | ⟨eq, mem⟩)
      · exact ⟨i, rule, later get, eq, mem⟩
      · exact ⟨p.rule, _, last, eq, mem⟩
    · rintro ⟨i, rule, get, eq, mem⟩
      rcases Nat.lt_or_ge i rules.length with lt | ge
      · rw [getElem?_append_left lt] at get
        exact .inl ⟨i, rule, get, eq, mem⟩
      · have lt := (List.getElem?_eq_some_iff.mp get).1
        rw [length_append, length_singleton] at lt
        obtain rfl : i = p.rule := by omega
        cases last.symm.trans get
        exact .inr ⟨eq, mem⟩

theorem Parses.ruled {start p : DfaParse} (initial : Initial start) {patterns : List (List Byte)}
    {root : Option Tnode} (parses : Parses start patterns p root) :
    p.anyset = start.anyset ∧ p.charMap = thompsonChars ∧ (root = none → p.rule = 0) ∧
      ∃ rules, List.Forall₂ (Rule.Of start.anyset) patterns rules ∧ p.rule = rules.length ∧
        ∀ tree, root = some tree → Ruled tree rules p.position := by
  induction parses with
  | nil =>
    have zero : start.rule = 0 := by rcases initial with rfl | rfl <;> rfl
    exact ⟨rfl, initial.cmap, fun _ => zero, [], .nil, zero,
      fun tree eq => absurd eq.symm (Option.some_ne_none tree)⟩
  | @concat patterns p root pattern fuel root' p' _ str parsed ih =>
    obtain ⟨anyset, cmap, zero, rules, of, number, ruled⟩ := ih
    obtain ⟨⟨top, q⟩, read, finish⟩ := Option.bind_eq_some_iff.mp parsed
    cases top with
    | error err => cases root <;> simp at finish
    | ok top =>
      have same : q = p' := by cases root <;> exact (mk.inj (Option.some.inj finish)).2
      subst same
      obtain ⟨anchored, t1, made, toks, tokens, denotes⟩ := doParse_rule cmap str read
      rw [anyset] at denotes
      refine ⟨made.anyset.trans anyset, made.cmap, fun eq => absurd eq (Option.some_ne_none _),
        rules ++ [⟨anchored, t1.lang⟩], rel_append of (.cons ?_ .nil), ?_, ?_⟩
      · exact ⟨toks, tokens, fun inhabited => denotes inhabited initial.any⟩
      · rw [made.rule, number, length_append, length_singleton]
      · intro tree eq
        cases eq
        cases root with
        | none =>
          obtain rfl := Except.ok.inj (mk.inj (Option.some.inj finish)).1
          obtain rfl := length_eq_zero_iff.mp (number.symm.trans (zero rfl))
          exact .first (zero rfl) made
        | some root =>
          obtain rfl := Except.ok.inj (mk.inj (Option.some.inj finish)).1
          exact (ruled root rfl).concat number made

/-- The numbers of the states of an automaton that is made -/
theorem Ruled.reports {root : Tnode} {hi position : Nat} (ruled : Ruled root rules hi)
    {states : List DfaState} (made : Settles (dfaMkstate position root) (.ok states))
    {w : List Letter} (text : Text w) :
    Smallest rules (fun rule => w ∈ rule.lang) (ruleNos states w).1 ∧
      (Smallest rules (fun rule => rule.anchored = false ∧ w ∈ rule.lang) (ruleNos states w).2 ↔
        InOrder rules w) := by
  have few : position < catCode := by
    by_contra many
    have error : Settles (dfaMkstate position root) (.error .position) :=
      ⟨0, fun fuel _ => if_pos (not_lt.mp many)⟩
    exact absurd (made.unique error) (by simp)
  obtain ⟨out, settles, ⟨rfl, -⟩ | ⟨dfas, rfl, -, building, finished⟩⟩ :=
    ruled.rooted.dfaMkstate ruled.not_nullable few
  · exact absurd (made.unique settles) (by simp)
  obtain rfl := Except.ok.inj (made.unique settles)
  -- the set of the state, or no positions if there is none
  obtain ⟨set, nos_eq, inside, ascending, held⟩ : ∃ set, ruleNos dfas.states w =
      (-(Dfa.rules (travOf root).posar set).1, -(Dfa.rules (travOf root).posar set).2) ∧
      (∀ p ∈ set, p ∈ root.positions) ∧ Ascending set ∧
      ∀ a < 0, w ++ [a] ∈ root.lang ↔ ∃ p ∈ set, ((travOf root).posar p).1 = a := by
    have lang (a : Letter) (neg : a < 0) : w ++ [a] ∈ root.lang ↔
        ∃ state, runTo dfas.states 0 w = some state ∧
          ∃ p ∈ state.set, ((travOf root).posar p).1 = a := by
      obtain ⟨b, u, word_eq⟩ : ∃ b u, w ++ [a] = b :: u := exists_cons_of_ne_nil (by simp)
      rw [← ruled.rooted.runTo_iff building.reached finished text building.first neg, word_eq]
      exact Tnode.cons_mem_lang ruled.rooted.distinct
    simp only [ruleNos]
    cases run : runTo dfas.states 0 w with
    | none =>
      refine ⟨[], rfl, fun p mem => absurd mem not_mem_nil, .nil,
        fun a neg => (lang a neg).trans ?_⟩
      simp [run]
    | some state =>
      have mem := runTo_mem run
      refine ⟨state.set, ?_, (building.reached state mem).positions,
        (building.reached state mem).ascending root.attr_ascending.1, fun a neg => ?_⟩
      · rw [← (finished state mem).ruleNo, ← (finished state mem).ruleNno]
        rfl
      · rw [lang a neg, run]
        simp
  have at_posar {p : Nat} (mem : p ∈ set) {ch : Int × Int} :
      root.At p ch ↔ (travOf root).posar p = ch := ruled.rooted.at_posar (inside p mem)
  have marked : ∀ p ∈ set, 0 ≤ ((travOf root).posar p).1 ∨ ∃ (i : Nat) (rule : Rule),
      rules[i]? = some rule ∧ (travOf root).posar p = mark i rule := by
    refine fun p mem => (lt_or_ge _ 0).symm.imp_right fun neg => ?_
    exact ruled.marks p _ ((at_posar mem).mpr rfl) neg
  have order : InRuleOrder rules (travOf root).posar set := by
    refine List.Pairwise.imp_of_mem ?_ ascending
    intro p q mem mem' lt i rule i' rule' _ _ eq eq'
    exact ruled.ordered p q i rule i' rule' ((at_posar mem).mpr eq) ((at_posar mem').mpr eq') lt
  have held_iff (i : Nat) (rule : Rule) : Held rules (travOf root).posar set i rule ↔
      rules[i]? = some rule ∧ w ∈ rule.lang := by
    refine and_congr_right fun get => ?_
    have neg : (-(i + 1 : Nat) : Int) < 0 := by omega
    constructor
    · rintro ⟨p, mem, eq⟩
      obtain ⟨i', rule', get', same, word⟩ :=
        (ruled.lang w _ neg).mp ((held _ neg).mpr ⟨p, mem, congrArg fst eq⟩)
      have number : (-(i + 1 : Nat) : Int) = -(i' + 1 : Nat) := same
      obtain rfl : i = i' := by omega
      cases get.symm.trans get'
      exact word
    · intro word
      obtain ⟨p, mem, eq⟩ := (held _ neg).mp ((ruled.lang w _ neg).mpr ⟨i, rule, get, rfl, word⟩)
      refine ⟨p, mem, ?_⟩
      obtain ⟨i', rule', get', same⟩ := (marked p mem).resolve_left (by omega)
      have number : (-(i + 1 : Nat) : Int) = -(i' + 1 : Nat) := eq.symm.trans (congrArg fst same)
      obtain rfl : i = i' := by omega
      cases get.symm.trans get'
      exact same
  obtain ⟨first, free⟩ := rules_spec marked order
  rw [nos_eq]
  exact ⟨first.smallest held_iff, free.smallest_iff held_iff⟩

/-- Of every automaton that patterns and `dfa_mkstate` give, the state that a text leads to reports
the right numbers if and only if no rule without `^` comes before one with it that also has the
text. -/
theorem reportsRight_iff {start p : DfaParse} (initial : Initial start)
    {patterns : List (List Byte)} {root : Tnode} (parses : Parses start patterns p (some root))
    {states : List DfaState} (made : Settles (dfaMkstate p.position root) (.ok states)) :
    ∃ rules, List.Forall₂ (Rule.Of start.anyset) patterns rules ∧
      ∀ w, Text w → (ReportsRight rules states w ↔ InOrder rules w) := by
  obtain ⟨-, -, -, rules, of, -, ruled⟩ := parses.ruled initial
  refine ⟨rules, of, fun w text => ?_⟩
  obtain ⟨first, free⟩ := (ruled root rfl).reports made text
  exact (and_iff_right first).trans free

theorem Rule.Of.unique {anyset : BSet} {pattern : List Byte} (of : Rule.Of anyset pattern rule)
    {anchored : Bool} {toks : List Token} {l : Language Letter}
    (tokens : Tokens false pattern (if anchored then .op .startAnchor :: toks else toks))
    (inhabited : Inhabited toks) (lang : PatternLang anyset toks l) : rule = ⟨anchored, l⟩ := by
  obtain ⟨toks', tokens', lang'⟩ := of
  obtain ⟨anchored', l'⟩ := rule
  have same := tokens'.unique tokens
  cases anchored with
  | true =>
    cases anchored' with
    | true =>
      obtain ⟨-, rfl⟩ := List.cons.inj same
      exact congrArg (Rule.mk true) ((lang' inhabited).unique lang)
    | false =>
      have inhabited' : Inhabited toks' := by
        rw [show toks' = _ from same]
        exact fun set mem => inhabited set ((mem_cons.mp mem).resolve_left (by simp))
      rw [show toks' = _ from same] at lang' inhabited'
      exact (lang' inhabited').not_anchored.elim
  | false =>
    cases anchored' with
    | true =>
      rw [← show _ = toks from same] at lang
      exact lang.not_anchored.elim
    | false =>
      rw [show toks' = toks from same] at lang'
      exact congrArg (Rule.mk false) ((lang' inhabited).unique lang)

/-- The tree of `a` and `^a` -/
def twinsTree : Tnode :=
  .or (rootOf (.leaf 1 97 97) 2 (-1) (-1)) (rootOf (.leaf 3 97 97) 4 (-2) 0)

/-- The automaton of `a` and `^a`: for inside of lines it reports no rule. -/
def twins : List DfaState := [⟨[1, 3], [⟨97, 97, 1⟩], 0, 0⟩, ⟨[2, 4], [], 1, 0⟩]

theorem stateLoop_twins {s : Trav} (pos₁ : s.posar 1 = (97, 97)) (pos₂ : s.posar 2 = (-1, -1))
    (pos₃ : s.posar 3 = (97, 97)) (pos₄ : s.posar 4 = (-2, 0)) (follow₁ : s.followpos 1 = [2])
    (follow₃ : s.followpos 3 = [4]) (fuel : Nat) :
    stateLoop s (fuel + 4) ⟨[⟨[1, 3], [], 0, 0⟩], [0]⟩ = some (.ok ⟨twins, []⟩) := by
  have range : findChar1 s [1, 3] 97 = (97, [2, 4]) := by
    simp [findChar1, pos₁, pos₃, follow₁, follow₃, unionDFASet, mkDFASet, charsetSize]
  have first : charLoop s [1, 3] (fuel + 3) 0 ⟨[⟨[1, 3], [], 0, 0⟩], []⟩ [] =
      some (.ok (⟨[⟨[1, 3], [], 0, 0⟩, ⟨[2, 4], [], 0, 0⟩], [1]⟩, [⟨97, 97, 1⟩])) := by
    simp [charLoop, findChar0, pos₁, pos₃, range, addDfaState, charsetSize, shrtMax]
  have second : charLoop s [] (fuel + 2) 0
      ⟨[⟨[1, 3], [⟨97, 97, 1⟩], 0, 0⟩, ⟨[2, 4], [], 0, 0⟩], []⟩ [] =
      some (.ok (⟨[⟨[1, 3], [⟨97, 97, 1⟩], 0, 0⟩, ⟨[2, 4], [], 0, 0⟩], []⟩, [])) := by
    simp [charLoop, findChar0, charsetSize]
  have rules₁ : Dfa.rules s.posar [1, 3] = (0, 0) := by simp [Dfa.rules, pos₁, pos₃]
  have rules₂ : Dfa.rules s.posar [2, 4] = (-1, 0) := by simp [Dfa.rules, pos₂, pos₄]
  have chars₁ : charPositions s.posar [1, 3] = [1, 3] := by
    simp [charPositions, pos₁, pos₃, charsetSize]
  have chars₂ : charPositions s.posar [2, 4] = [] := by simp [charPositions, pos₂, pos₄]
  simp [stateLoop, rules₁, rules₂, chars₁, chars₂, first, second, twins]

theorem dfaMkstate_twins : Settles (dfaMkstate 4 twinsTree) (.ok twins) := by
  refine .succ (.succ (.succ (.succ ⟨0, fun fuel _ => ?_⟩)))
  have firstpos : (dfaTrav twinsTree travInit).1.firstpos = [1, 3] := by
    simp [twinsTree, rootOf, dfaTrav, unionDFASet, mkDFASet, addDFASet]
  obtain ⟨pos₁, pos₂, pos₃, pos₄, follow₁, follow₃⟩ :
      (dfaTrav twinsTree travInit).2.posar 1 = (97, 97) ∧
      (dfaTrav twinsTree travInit).2.posar 2 = (-1, -1) ∧
      (dfaTrav twinsTree travInit).2.posar 3 = (97, 97) ∧
      (dfaTrav twinsTree travInit).2.posar 4 = (-2, 0) ∧
      (dfaTrav twinsTree travInit).2.followpos 1 = [2] ∧
      (dfaTrav twinsTree travInit).2.followpos 3 = [4] := by
    simp [twinsTree, rootOf, dfaTrav, travInit, addFollow, addDFASet, mkDFASet, unionDFASet,
      Function.update]
  have loop := stateLoop_twins pos₁ pos₂ pos₃ pos₄ follow₁ follow₃ fuel
  simp [dfaMkstate, catCode, firstpos, addDfaState, shrtMax, loop]

theorem twins_made : ∃ p, Parses dfaInit [[97], [94, 97]] p (some twinsTree) ∧
    Settles (dfaMkstate p.position twinsTree) (.ok twins) := by
  have both : ((dfaParse 20 none dfaInit [97]).bind fun first =>
      (dfaParse 20 first.1.toOption first.2 [94, 97]).map fun second =>
        (first.1, second.1, second.2.position)) =
      some (.ok (rootOf (.leaf 1 97 97) 2 (-1) (-1)), .ok twinsTree, 4) := by
    decide +kernel
  obtain ⟨⟨_, p⟩, first, both⟩ := Option.bind_eq_some_iff.mp both
  obtain ⟨⟨_, p'⟩, second, eq⟩ := Option.map_eq_some_iff.mp both
  simp only [mk.injEq] at eq
  obtain ⟨rfl, rfl, position⟩ := eq
  exact ⟨p', .concat (.concat .nil
    (by rw [CString]; decide) first) (by rw [CString]; decide) second,
    position ▸ dfaMkstate_twins⟩

theorem twins_rules {anyset : BSet} {rules : List Rule}
    (of : List.Forall₂ (Rule.Of anyset) [[97], [94, 97]] rules) :
    rules = [⟨false, charsLang (· = 97)⟩, ⟨true, charsLang (· = 97)⟩] := by
  have lang : PatternLang anyset [.char 97] (charsLang (· = 97)) :=
    .expr (.factors (.repeated (.atom .char)))
  have inhabited : Inhabited [.char 97] := fun set mem => by simp at mem
  have letter : Tokens false [97] [.char 97] :=
    .cons (@Reads.plain [97] 97 [] rfl (by decide) (by decide) (by decide) rfl) (.eos .eos)
  have line : Tokens false [94, 97] [.op .startAnchor, .char 97] :=
    .cons (@Reads.op _ 94 _ _ rfl (by decide) (by decide) (by decide) rfl (by decide)) letter
  obtain _ | ⟨first, _ | ⟨second, _ | _⟩⟩ := of
  rw [@Rule.Of.unique _ _ _ first false _ _ letter inhabited lang,
    @Rule.Of.unique _ _ _ second true _ _ line inhabited lang]

theorem reportsRight_iff_twins : ∃ p root states, Parses dfaInit [[97], [94, 97]] p (some root) ∧
    ∃ rules, List.Forall₂ (Rule.Of dfaInit.anyset) [[97], [94, 97]] rules ∧
      ∀ w, Text w → (ReportsRight rules states w ↔ InOrder rules w) := by
  obtain ⟨p, parses, made⟩ := twins_made
  exact ⟨p, twinsTree, twins, parses, reportsRight_iff (.inl rfl) parses made⟩

/-- Of `a` and `^a`, the state of `a` reports no rule for inside of lines. -/
theorem not_reportsRight : ¬∀ (start : DfaParse) (patterns : List (List Byte)) (p : DfaParse)
    (root : Tnode) (states : List DfaState), Initial start → Parses start patterns p (some root) →
      Settles (dfaMkstate p.position root) (.ok states) →
        ∃ rules, List.Forall₂ (Rule.Of start.anyset) patterns rules ∧
          ∀ w, Text w → ReportsRight rules states w := by
  intro all
  obtain ⟨p, parses, made⟩ := twins_made
  obtain ⟨rules, of, right⟩ := all dfaInit _ p twinsTree twins (.inl rfl) parses made
  obtain ⟨-, -, -, rules', of', -, ruled⟩ := parses.ruled (.inl rfl)
  obtain rfl := (twins_rules of).trans (twins_rules of').symm
  have text : Text [97] := by
    rw [Text]
    decide
  have inOrder := ((ruled twinsTree rfl).reports made text).2.mp (right [97] text).2
  rw [twins_rules of] at inOrder
  have letter : [97] ∈ charsLang (· = 97) := ⟨97, rfl, rfl⟩
  exact absurd (inOrder 0 _ 1 _ rfl rfl letter letter rfl rfl) (by decide)

end Zebra.Dfa
