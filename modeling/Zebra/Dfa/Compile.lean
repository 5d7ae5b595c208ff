import Zebra.Dfa.Ranges
import Zebra.Lib.Fuel
import Zebra.Lib.Paired

/-!
# The subset construction

`mk_dfa_tran` as a whole.  States are only ever added, and sets of states do not change; a state
that has been worked on leads, on every character, to the state of the positions that may follow.
-/

namespace Zebra.Dfa

open List

variable {s : Trav} {start : DFASet} {dfas dfas' : DfaStates}

def setOf (states : List DfaState) (no : Nat) : Option DFASet := (states[no]?).map (·.set)

def Extends (states states' : List DfaState) : Prop :=
  ∀ no set, setOf states no = some set → setOf states' no = some set

/-- Transitions that lead from the positions of `pos`, for the characters before `bound`, to where
these positions lead. -/
structure Steps (s : Trav) (states : List DfaState) (pos : List Nat) (bound : Int)
    (trans : List DfaTran) : Prop where
  ascending : trans.Pairwise fun t t' => t.ch1 < t'.ch0
  ranges : ∀ t ∈ trans, 0 ≤ t.ch0 ∧ t.ch0 ≤ t.ch1 ∧ t.ch1 < bound
  leads : ∀ t ∈ trans, ∃ set, setOf states t.toNo = some set ∧
    ∀ c, t.ch0 ≤ c → c ≤ t.ch1 → ∀ q, q ∈ set ↔ Leads s pos c q
  none : ∀ c, 0 ≤ c → c < bound → (∀ t ∈ trans, ¬(t.ch0 ≤ c ∧ c ≤ t.ch1)) → ∀ q, ¬Leads s pos c q

/-- Sets of positions that come up: the first ones, and what they lead to. -/
inductive Reached (s : Trav) (start : DFASet) : DFASet → Prop
  | start : Reached s start start
  | step {set set' : DFASet} (c : Int) : Reached s start set → set' ≠ [] → Ascending set' →
      (∀ q, q ∈ set' ↔ Leads s (charPositions s.posar set) c q) → Reached s start set'

/-- A state that has been worked on. -/
structure Finished (s : Trav) (states : List DfaState) (state : DfaState) : Prop where
  steps : Steps s states (charPositions s.posar state.set) (charsetSize + 1) state.trans
  ruleNo : state.ruleNo = -(rules s.posar state.set).1
  ruleNno : state.ruleNno = -(rules s.posar state.set).2

/-- States as `mk_dfa_tran` has them between two rounds. -/
structure Building (s : Trav) (start : DFASet) (dfas : DfaStates) : Prop where
  first : setOf dfas.states 0 = some start
  distinct : (dfas.states.map (·.set)).Nodup
  reached : ∀ state ∈ dfas.states, Reached s start state.set
  unmarked_lt : ∀ no ∈ dfas.unmarked, no < dfas.states.length
  unmarked_nodup : dfas.unmarked.Nodup
  few : dfas.states.length ≤ shrtMax + 1

/-- More sets of positions come up than states can be numbered. -/
def TooMany (s : Trav) (start : DFASet) : Prop :=
  ∃ sets : List DFASet, sets.Nodup ∧ shrtMax + 1 < sets.length ∧ ∀ set ∈ sets, Reached s start set

variable {no : Nat} {set : DFASet}

theorem setOf_append (states new : List DfaState)
    (get : setOf states no = some set) : setOf (states ++ new) no = some set := by
  obtain ⟨found, found_eq, rfl⟩ := Option.map_eq_some_iff.mp get
  have lt := (List.getElem?_eq_some_iff.mp found_eq).1
  rw [setOf, getElem?_append_left lt, found_eq, Option.map_some]

theorem Extends.trans {states states' states'' : List DfaState} (first : Extends states states')
    (second : Extends states' states'') : Extends states states'' :=
  fun no set get => second no set (first no set get)

theorem Steps.extends {states states' : List DfaState} {pos : List Nat} {bound : Int}
    {trans : List DfaTran} (steps : Steps s states pos bound trans)
    (ext : Extends states states') : Steps s states' pos bound trans where
  ascending := steps.ascending
  ranges := steps.ranges
  leads t mem := by
    obtain ⟨set, get, leads⟩ := steps.leads t mem
    exact ⟨set, ext _ _ get, leads⟩
  none := steps.none

theorem Building.add (building : Building s start dfas)
    (reached : Reached s start set) (new : set ∉ dfas.states.map (·.set))
    (fits : dfas.states.length ≤ shrtMax) :
    Building s start {
      states := dfas.states ++ [{ set, trans := [], ruleNo := 0, ruleNno := 0 }]
      unmarked := dfas.states.length :: dfas.unmarked } where
  first := setOf_append _ _ building.first
  distinct := by
    rw [map_append, nodup_append']
    refine ⟨building.distinct, nodup_singleton _, ?_⟩
    simpa [disjoint_singleton] using new
  reached := by
    intro state mem
    rcases mem_append.mp mem with mem | mem
    · exact building.reached state mem
    · rw [mem_singleton.mp mem]
      exact reached
  unmarked_lt := by
    intro no mem
    rw [length_append]
    rcases mem_cons.mp mem with rfl | mem
    · exact Nat.lt_succ_self _
    · exact Nat.lt_succ_of_lt (building.unmarked_lt no mem)
  unmarked_nodup := by
    refine nodup_cons.mpr ⟨fun mem => ?_, building.unmarked_nodup⟩
    exact absurd (building.unmarked_lt _ mem) (Nat.lt_irrefl _)
  few := by
    rw [length_append]
    exact Nat.succ_le_succ fits

/-- What comes of states when states are added. -/
structure Grown (dfas dfas' : DfaStates) : Prop where
  states : ∃ new, dfas'.states = dfas.states ++ new
  marked : ∀ no < dfas'.states.length, no ∉ dfas'.unmarked →
    no < dfas.states.length ∧ no ∉ dfas.unmarked
  unmarked : ∀ no ∈ dfas'.unmarked, no ∈ dfas.unmarked ∨ dfas.states.length ≤ no
  count : dfas'.unmarked.length + dfas.states.length = dfas.unmarked.length + dfas'.states.length

theorem Grown.refl (dfas : DfaStates) : Grown dfas dfas :=
  ⟨⟨[], (append_nil _).symm⟩, fun _ lt not_mem => ⟨lt, not_mem⟩, fun _ => .inl, rfl⟩

theorem Grown.length_le (grown : Grown dfas dfas') : dfas.states.length ≤ dfas'.states.length := by
  obtain ⟨new, eq⟩ := grown.states
  rw [eq, length_append]
  exact Nat.le_add_right _ _

theorem Grown.trans {dfas'' : DfaStates} (first : Grown dfas dfas') (second : Grown dfas' dfas'') :
    Grown dfas dfas'' where
  states := by
    obtain ⟨new, eq⟩ := first.states
    obtain ⟨new', eq'⟩ := second.states
    exact ⟨new ++ new', by rw [eq', eq, append_assoc]⟩
  marked no lt not_mem := by
    obtain ⟨lt, not_mem⟩ := second.marked no lt not_mem
    exact first.marked no lt not_mem
  unmarked no mem := by
    rcases second.unmarked no mem with mem | le
    · exact first.unmarked no mem
    · exact .inr (first.length_le.trans le)
  count := by
    have count₁ := first.count
    have count₂ := second.count
    omega

theorem Grown.extends (grown : Grown dfas dfas') : Extends dfas.states dfas'.states := by
  obtain ⟨new, eq⟩ := grown.states
  rw [eq]
  exact fun _ _ => setOf_append _ _

theorem addDfaState_spec (building : Building s start dfas) (ne : set ≠ [])
    (reached : Reached s start set) :
    (addDfaState dfas set = .error .stateNo ∧ TooMany s start) ∨
      ∃ no dfas', addDfaState dfas set = .ok (no, dfas') ∧ Building s start dfas' ∧
        Grown dfas dfas' ∧ setOf dfas'.states no = some set := by
  unfold addDfaState
  rw [if_neg ne]
  cases found : dfas.states.findIdx? fun si => si.set = set with
  | some no =>
    right
    obtain ⟨lt, same, -⟩ := findIdx?_eq_some_iff_getElem.mp found
    refine ⟨no, dfas, rfl, building, .refl dfas, ?_⟩
    rw [setOf, getElem?_eq_getElem lt, Option.map_some, of_decide_eq_true same]
  | none =>
    have new : set ∉ dfas.states.map (·.set) := by
      intro mem
      obtain ⟨state, state_mem, same⟩ := mem_map.mp mem
      have differs := findIdx?_eq_none_iff.mp found state state_mem
      exact absurd same (of_decide_eq_false differs)
    simp only
    split
    · next fits =>
      right
      refine ⟨_, _, rfl, building.add reached new fits, ⟨⟨_, rfl⟩, ?_, ?_, ?_⟩, ?_⟩
      · intro no lt not_mem
        obtain ⟨not_new, not_mem⟩ := not_or.mp (mt mem_cons.mpr not_mem)
        rw [length_append, length_singleton] at lt
        exact ⟨by omega, not_mem⟩
      · intro no mem
        exact (mem_cons.mp mem).symm.imp_right fun eq => eq.ge
      · rw [length_cons, length_append, length_singleton]
        omega
      · simp [setOf]
    · next full =>
      left
      refine ⟨rfl, set :: dfas.states.map (·.set), nodup_cons.mpr ⟨new, building.distinct⟩, ?_,
        ?_⟩
      · rw [length_cons, length_map]
        omega
      · refine forall_mem_cons.mpr ⟨reached, fun set mem => ?_⟩
        obtain ⟨state, state_mem, rfl⟩ := mem_map.mp mem
        exact building.reached state state_mem

section

variable {states : List DfaState} {pos : List Nat} {bound : Int} {trs : List DfaTran}

theorem Steps.skip (steps : Steps s states pos bound trs) {bound' : Int} (le : bound ≤ bound')
    (nowhere : ∀ c, bound ≤ c → c < bound' → ∀ q, ¬Leads s pos c q) :
    Steps s states pos bound' trs where
  ascending := steps.ascending
  ranges t mem := by
    obtain ⟨low, le', lt⟩ := steps.ranges t mem
    exact ⟨low, le', by omega⟩
  leads := steps.leads
  none c low lt uncovered := by
    by_cases before : c < bound
    · exact steps.none c low before uncovered
    · exact nowhere c (by omega) lt

theorem Steps.add (steps : Steps s states pos bound trs) {char0 char1 : Int} {toNo : Nat}
    {set : DFASet} (low : 0 ≤ bound) (le : bound ≤ char0) (le' : char0 ≤ char1)
    (nowhere : ∀ c, bound ≤ c → c < char0 → ∀ q, ¬Leads s pos c q)
    (get : setOf states toNo = some set)
    (leads : ∀ c, char0 ≤ c → c ≤ char1 → ∀ q, q ∈ set ↔ Leads s pos c q) :
    Steps s states pos (char1 + 1) (trs ++ [{ ch0 := char0, ch1 := char1, toNo }]) where
  ascending := by
    refine pairwise_append.mpr ⟨steps.ascending, pairwise_singleton _ _, ?_⟩
    intro t mem t' mem'
    rw [mem_singleton.mp mem']
    exact lt_of_lt_of_le (steps.ranges t mem).2.2 le
  ranges t mem := by
    rcases mem_append.mp mem with mem | mem
    · obtain ⟨low, le', lt⟩ := steps.ranges t mem
      exact ⟨low, le', by omega⟩
    · rw [mem_singleton.mp mem]
      exact ⟨by simp only; omega, le', by simp only; omega⟩
  leads t mem := by
    rcases mem_append.mp mem with mem | mem
    · exact steps.leads t mem
    · rw [mem_singleton.mp mem]
      exact ⟨set, get, leads⟩
  none c c_low lt uncovered := by
    have uncovered' := uncovered { ch0 := char0, ch1 := char1, toNo } (by simp)
    simp only at uncovered'
    by_cases before : c < bound
    · exact steps.none c c_low before fun t mem => uncovered t (mem_append_left _ mem)
    · exact nowhere c (by omega) (by omega)

end

/-- The loop over the characters makes all transitions of the set it works on. -/
theorem charLoop_spec {dfas : DfaStates} (reached : Reached s start set)
    (ordered : Ordered s.posar (charPositions s.posar set))
    (ascending : ∀ p, Ascending (s.followpos p)) {char1 : Int} (low : 0 ≤ char1)
    (le_end : char1 ≤ charsetSize + 1) {trs : List DfaTran} (building : Building s start dfas)
    (steps : Steps s dfas.states (charPositions s.posar set) char1 trs) :
    ∃ out, Settles (fun fuel => charLoop s (charPositions s.posar set) fuel char1 dfas trs) out ∧
      ((out = .error .stateNo ∧ TooMany s start) ∨
        ∃ dfas' trs', out = .ok (dfas', trs') ∧ Building s start dfas' ∧ Grown dfas dfas' ∧
          Steps s dfas'.states (charPositions s.posar set) (charsetSize + 1) trs') := by
  by_cases at_end : char1 > charsetSize
  · obtain rfl : char1 = charsetSize + 1 := by omega
    refine ⟨.ok (dfas, trs), .succ ?_, .inr ⟨dfas, trs, rfl, building, .refl dfas, steps⟩⟩
    simp only [charLoop, if_pos at_end]
    exact .pure _
  · have char0_spec := findChar0_spec ordered le_end
    have nowhere : ∀ c, char1 ≤ c → c < findChar0 s.posar (charPositions s.posar set) char1 →
        ∀ q, ¬Leads s (charPositions s.posar set) c q := by
      rintro c c_ge c_lt q ⟨i, mem, in_range, -⟩
      exact char0_spec.before i mem c c_ge c_lt in_range
    have char0_ge := char0_spec.le
    by_cases no_more : findChar0 s.posar (charPositions s.posar set) char1 > charsetSize
    · refine ⟨.ok (dfas, trs), .succ ?_, .inr ⟨dfas, trs, rfl, building, .refl dfas, ?_⟩⟩
      · simp only [charLoop, if_neg at_end, if_pos no_more]
        exact .pure _
      · exact steps.skip le_end fun c c_ge c_lt => nowhere c c_ge (by omega)
    · have char1_spec := findChar1_spec ordered (not_lt.mp no_more)
      have ascending_set : Ascending (findChar1 s (charPositions s.posar set)
          (findChar0 s.posar (charPositions s.posar set) char1)).2 :=
        findChar1_ascending ascending _
      generalize char0_eq : findChar0 s.posar (charPositions s.posar set) char1 = char0 at *
      have range_ge := char1_spec.le
      have range_le := char1_spec.le_end
      have leads_range : ∀ c, char0 ≤ c → c ≤ (findChar1 s (charPositions s.posar set) char0).1 →
          ∀ q, q ∈ (findChar1 s (charPositions s.posar set) char0).2 ↔
            Leads s (charPositions s.posar set) c q := by
        intro c c_ge c_le q
        rw [char1_spec.set q]
        refine exists_congr fun i => and_congr_right fun mem => and_congr_left' ?_
        exact (char1_spec.agree i mem c c_ge c_le).symm
      generalize range_eq : findChar1 s (charPositions s.posar set) char0 = range at *
      by_cases empty : range.2 = []
      · have steps' := steps.skip (show char1 ≤ range.1 + 1 by omega) fun c c_ge c_lt q leads => by
          by_cases before : c < char0
          · exact nowhere c c_ge before q leads
          · have mem := (leads_range c (by omega) (by omega) q).mpr leads
            simp [empty] at mem
        obtain ⟨out, settles, result⟩ := charLoop_spec reached ordered ascending (by omega)
          (by omega) building steps'
        refine ⟨out, .succ ?_, result⟩
        simpa only [charLoop, if_neg at_end, char0_eq, if_neg no_more, range_eq, if_pos empty]
          using settles
      · have reached' : Reached s start range.2 :=
          .step char0 reached empty ascending_set fun q => leads_range char0 le_rfl (by omega) q
        rcases addDfaState_spec building empty reached' with ⟨full, too_many⟩ |
          ⟨no, dfas', added, building', grown, get⟩
        · refine ⟨.error .stateNo, .succ ?_, .inl ⟨rfl, too_many⟩⟩
          simp only [charLoop, if_neg at_end, char0_eq, if_neg no_more, range_eq,
            if_neg empty, full]
          exact .pure _
        · have steps' := (steps.extends grown.extends).add low char0_ge range_ge nowhere get
            leads_range
          obtain ⟨out, settles, result⟩ := charLoop_spec reached ordered ascending (by omega)
            (by omega) building' steps'
          refine ⟨out, .succ ?_, result.imp_right ?_⟩
          · simpa only [charLoop, if_neg at_end, char0_eq, if_neg no_more, range_eq, if_neg empty,
              added] using settles
          · rintro ⟨dfas'', trs', out_eq, building'', grown', steps''⟩
            exact ⟨dfas'', trs', out_eq, building'', grown.trans grown', steps''⟩
termination_by (charsetSize + 1 - char1).toNat
decreasing_by
  · omega
  · omega

variable {state : DfaState}

theorem Finished.extends {states states' : List DfaState}
    (finished : Finished s states state) (ext : Extends states states') :
    Finished s states' state :=
  ⟨finished.steps.extends ext, finished.ruleNo, finished.ruleNno⟩

theorem Finished.rule_ne_zero {states : List DfaState} (finished : Finished s states state) :
    state.ruleNo ≠ 0 ↔ ∃ value ∈ state.set, (s.posar value).1 < 0 := by
  rw [finished.ruleNo]
  exact rules_ne_zero _

theorem setOf_set {states : List DfaState} (same : setOf states no = some state.set) (no' : Nat) :
    setOf (states.set no state) no' = setOf states no' := by
  obtain ⟨old, old_eq, old_set⟩ := Option.map_eq_some_iff.mp same
  have lt := (List.getElem?_eq_some_iff.mp old_eq).1
  by_cases eq : no = no'
  · subst eq
    rw [same, setOf, getElem?_set_self lt, Option.map_some]
  · rw [setOf, setOf, getElem?_set_ne eq]

theorem map_set_set {states : List DfaState} (same : setOf states no = some state.set) :
    (states.set no state).map (·.set) = states.map (·.set) := by
  refine ext_getElem? fun no' => ?_
  have eq := setOf_set same no'
  simpa only [setOf, getElem?_map] using eq

/-- A state is worked on: its record gets its transitions and its rule. -/
theorem Building.mark (building : Building s start dfas)
    (same : setOf dfas.states no = some state.set) :
    Building s start { dfas with states := dfas.states.set no state } where
  first := (setOf_set same 0).trans building.first
  distinct := by
    rw [map_set_set same]
    exact building.distinct
  reached := by
    intro state' mem
    rcases mem_or_eq_of_mem_set mem with mem | rfl
    · exact building.reached state' mem
    · obtain ⟨old, old_eq, old_set⟩ := Option.map_eq_some_iff.mp same
      rw [← old_set]
      exact building.reached old (mem_of_getElem? old_eq)
  unmarked_lt := by simpa using building.unmarked_lt
  unmarked_nodup := building.unmarked_nodup
  few := by simpa using building.few

/-- All states that are not in the chain have been worked on. -/
def Marked (s : Trav) (dfas : DfaStates) : Prop :=
  ∀ no state, dfas.states[no]? = some state → no ∉ dfas.unmarked → Finished s dfas.states state

theorem stateLoop_spec {dfas : DfaStates}
    (ordered : ∀ set, Reached s start set → Ordered s.posar (charPositions s.posar set))
    (ascending : ∀ p, Ascending (s.followpos p)) (building : Building s start dfas)
    (marked : Marked s dfas) :
    ∃ out, Settles (fun fuel => stateLoop s fuel dfas) out ∧
      ((out = .error .stateNo ∧ TooMany s start) ∨
        ∃ dfas', out = .ok dfas' ∧ Building s start dfas' ∧
          ∀ state ∈ dfas'.states, Finished s dfas'.states state) := by
  cases unmarked_eq : dfas.unmarked with
  | nil =>
    refine ⟨.ok dfas, .succ ?_, .inr ⟨dfas, rfl, building, fun state mem => ?_⟩⟩
    · simp only [stateLoop, unmarked_eq]
      exact .pure _
    · obtain ⟨no, get⟩ := mem_iff_getElem?.mp mem
      exact marked no state get (by simp [unmarked_eq])
  | cons no unmarked =>
    have no_lt := building.unmarked_lt no (by simp [unmarked_eq])
    have nodup := building.unmarked_nodup
    rw [unmarked_eq] at nodup
    obtain ⟨no_fresh, nodup⟩ := nodup_cons.mp nodup
    obtain ⟨dfaFrom, get⟩ : ∃ dfaFrom, dfas.states[no]? = some dfaFrom :=
      ⟨_, getElem?_eq_getElem no_lt⟩
    have reached := building.reached dfaFrom (mem_of_getElem? get)
    have popped : Building s start { dfas with unmarked } :=
      { building with
        unmarked_lt := fun no mem => building.unmarked_lt no (by simp [unmarked_eq, mem])
        unmarked_nodup := nodup }
    have none_yet : Steps s ({ dfas with unmarked } : DfaStates).states
        (charPositions s.posar dfaFrom.set) 0 [] :=
      ⟨.nil, by simp, by simp, fun c low lt => absurd low (by omega)⟩
    obtain ⟨out, settles, result⟩ := charLoop_spec reached (ordered _ reached) ascending le_rfl
      (by decide) popped none_yet
    have round (fuel : Nat) : stateLoop s (fuel + 1) dfas =
        charLoop s (charPositions s.posar dfaFrom.set) fuel 0 { dfas with unmarked }
          [] >>= fun out =>
          Except.casesOn out (fun fault => some (.error fault)) fun found =>
            stateLoop s fuel { found.1 with
              states := found.1.states.set no
                { dfaFrom with
                  trans := found.2
                  ruleNo := -(rules s.posar dfaFrom.set).1
                  ruleNno := -(rules s.posar dfaFrom.set).2 } } := by
      simp only [stateLoop, unmarked_eq, get]
      refine bind_congr fun out => ?_
      rcases out with fault | ⟨dfas, trs⟩ <;> rfl
    rcases result with ⟨rfl, too_many⟩ | ⟨dfas₁, trs, rfl, building₁, grown, steps⟩
    · exact ⟨_, .step round settles (.pure _), .inl ⟨rfl, too_many⟩⟩
    · generalize state_eq : ({ dfaFrom with
        trans := trs
        ruleNo := -(rules s.posar dfaFrom.set).1
        ruleNno := -(rules s.posar dfaFrom.set).2 } : DfaState) = state
      have state_set : state.set = dfaFrom.set := by rw [← state_eq]
      have same : setOf dfas₁.states no = some state.set := by
        rw [state_set]
        exact grown.extends no _ (by simp [setOf, get])
      have ext : Extends dfas₁.states (dfas₁.states.set no state) :=
        fun no' _ get' => (setOf_set same no').trans get'
      have finished : Finished s (dfas₁.states.set no state) state := by
        refine ⟨?_, by rw [← state_eq], by rw [← state_eq]⟩
        rw [state_set, ← state_eq]
        exact steps.extends (state_eq ▸ ext)
      have marked' : Marked s { dfas₁ with states := dfas₁.states.set no state } := by
        intro no' state' get' not_mem
        by_cases eq : no = no'
        · subst eq
          rw [getElem?_set_self (no_lt.trans_le grown.length_le)] at get'
          rwa [← Option.some.inj get']
        · rw [getElem?_set_ne eq] at get'
          obtain ⟨lt, not_mem'⟩ := grown.marked no' (List.getElem?_eq_some_iff.mp get').1 not_mem
          obtain ⟨new, states_eq⟩ := grown.states
          rw [states_eq, getElem?_append_left lt] at get'
          have old := marked no' state' get' (by
            rw [unmarked_eq, mem_cons]
            rintro (rfl | mem)
            · exact eq rfl
            · exact not_mem' mem)
          exact old.extends (grown.extends.trans ext)
      have count := grown.count
      have few := building₁.few
      obtain ⟨out, later, result⟩ := stateLoop_spec ordered ascending (building₁.mark same) marked'
      refine ⟨out, .step round settles ?_, result⟩
      rw [← state_eq] at later
      exact later
termination_by shrtMax + 1 - dfas.states.length + dfas.unmarked.length
decreasing_by
  simp only [length_set, unmarked_eq, length_cons] at count ⊢
  omega

end Zebra.Dfa
