import Mathlib.Data.Multiset.Filter
import Zebra.Rset.Rset

/-!
# Result sets that seek

A set may be forwarded to a key: it then goes on with what is not a whole record behind that key.
The calls of a reader, in any order, take a collection apart in this way.
-/

namespace Zebra.Rset

open Multiset

variable {σ Key Term : Type} {kc : KeyControl Key} {c : RsetControl σ Key Term}
  {holds : σ → Multiset (Key × Term) → Prop}

/-- Keys of one record are both behind a key, or neither is. -/
theorem KeyControl.ahead_of_near {a b untilbuf : Key} (near : kc.Near a b)
    (here : kc.cmp untilbuf a < kc.scope) : kc.cmp untilbuf b < kc.scope := by
  by_contra behind
  have swap := kc.swap untilbuf b
  have back := kc.swap untilbuf a
  have beyond := kc.beyond_of_near (kc.near_symm near) (c := untilbuf) (by omega)
  omega

def ahead (kc : KeyControl Key) (untilbuf : Key) (m : Multiset (Key × Term)) :
    Multiset (Key × Term) :=
  m.filter fun item => kc.cmp untilbuf item.1 < kc.scope

/-- A type of result set whose forward gives the first key that is not a whole record behind. -/
structure Seeks (kc : KeyControl Key) (c : RsetControl σ Key Term)
    (holds : σ → Multiset (Key × Term) → Prop) : Prop where
  read : ∀ s m, holds s m → ∃ out, Settles (fun fuel => c.fRead fuel s) out ∧
    Delivers kc holds m out
  forward : ∀ fForward, c.fForward = some fForward → ∀ s m untilbuf, holds s m →
    ∃ out, Settles (fun fuel => fForward fuel s untilbuf) out ∧
      Delivers kc holds (ahead kc untilbuf m) out

theorem ahead_add_behind (untilbuf : Key) (m : Multiset (Key × Term)) :
    m = m.filter (fun item => ¬ kc.cmp untilbuf item.1 < kc.scope) + ahead kc untilbuf m := by
  rw [Multiset.add_comm]
  exact (filter_add_not _ m).symm

theorem Seeks.yields (seeks : Seeks kc c holds) : Yields kc c holds where
  read := seeks.read
  forward fForward has s m untilbuf held := by
    obtain ⟨out, settles, delivers⟩ := seeks.forward fForward has s m untilbuf held
    exact ⟨out, settles, _, _, ahead_add_behind untilbuf m,
      fun item member => not_lt.mp (mem_filter.mp member).2, delivers⟩

theorem ahead_eq_self {untilbuf : Key} {item : Key × Term} {rest : Multiset (Key × Term)}
    (here : kc.cmp untilbuf item.1 < kc.scope) (least : ∀ other ∈ rest, kc.cmp item.1 other.1 ≤ 0) :
    ahead kc untilbuf (item ::ₘ rest) = item ::ₘ rest := by
  refine filter_eq_self.mpr fun other member => ?_
  obtain rfl | member := mem_cons.mp member
  · exact here
  · have le := least other member
    have pos := kc.scope_pos
    by_contra behind
    have swap := kc.swap untilbuf other.1
    have back := kc.swap untilbuf item.1
    have chain := kc.chain item.1 other.1 untilbuf le (by omega)
    omega

theorem ahead_cons_of_behind {untilbuf : Key} {item : Key × Term} {rest : Multiset (Key × Term)}
    (behind : ¬ kc.cmp untilbuf item.1 < kc.scope) :
    ahead kc untilbuf (item ::ₘ rest) = ahead kc untilbuf rest :=
  filter_cons_of_neg rest behind

variable {m : Multiset (Key × Term)} {rfd : Rsfd σ Key}

theorem Seeks.readUntil (seeks : Seeks kc c holds) (untilbuf : Key) (held : rfd.Holds holds m) :
    ∃ out, Settles (fun fuel => readUntil kc c fuel rfd untilbuf) out ∧
      Delivers kc (Rsfd.Holds holds) (ahead kc untilbuf m) out := by
  induction m using strongInductionOn generalizing rfd with
  | ih m ih =>
    obtain ⟨⟨item, rfd'⟩, settles, delivers⟩ := seeks.yields.rsetDefaultRead held
    cases delivers with
    | eof empty => exact ⟨_, .step (fun _ => rfl) settles (.pure _), .eof empty⟩
    | @key item rest _ left least =>
      by_cases here : kc.cmp untilbuf item.1 < kc.scope
      · refine ⟨(some item, rfd'), .step (fun _ => rfl) settles ?_, ?_⟩
        · simp only [if_pos here]
          exact .pure _
        · rw [ahead_eq_self here least]
          exact .key left least
      · obtain ⟨out, later, delivers⟩ := ih rest (lt_cons_self rest item) left
        refine ⟨out, .step (fun _ => rfl) settles ?_, ?_⟩
        · simpa only [if_neg here] using later
        · rw [ahead_cons_of_behind here]
          exact delivers

theorem Seeks.rsetDefaultForward (seeks : Seeks kc c holds) (untilbuf : Key)
    (held : rfd.Holds holds m) :
    ∃ out, Settles (fun fuel => rsetDefaultForward kc c fuel rfd untilbuf) out ∧
      Delivers kc (Rsfd.Holds holds) (ahead kc untilbuf m) out := by
  unfold Zebra.Rset.rsetDefaultForward
  split
  · rename_i fForward has_forward
    split
    · obtain ⟨⟨item, priv⟩, settles, delivers⟩ :=
        seeks.forward fForward has_forward _ _ untilbuf held
      refine ⟨_, settles.bind (.pure _), ?_⟩
      generalize ahead kc untilbuf m = left at delivers ⊢
      cases delivers with
      | eof empty => exact .eof empty
      | key left least => exact .key left least
    · exact seeks.readUntil untilbuf held
  · exact seeks.readUntil untilbuf held

/-- A call of `rset_read`, or of `rset_forward` with a key. -/
def serveCall (kc : KeyControl Key) (c : RsetControl σ Key Term) (fuel : Nat) (rfd : Rsfd σ Key) :
    Option Key → Option (Option (Key × Term) × Rsfd σ Key)
  | none => rsetDefaultRead kc c fuel rfd
  | some untilbuf => rsetDefaultForward kc c fuel rfd untilbuf

def serve (kc : KeyControl Key) (c : RsetControl σ Key Term) (fuel : Nat) :
    List (Option Key) → Rsfd σ Key → Option (List (Option (Key × Term)) × Rsfd σ Key)
  | [], rfd => some ([], rfd)
  | call :: calls, rfd => do
      let (item, rfd) ← serveCall kc c fuel rfd call
      let (items, rfd) ← serve kc c fuel calls rfd
      some (item :: items, rfd)

/-- Whatever the calls are, what is left is a collection again. -/
theorem Yields.serve (yields : Yields kc c holds) (calls : List (Option Key))
    (held : rfd.Holds holds m) :
    ∃ items rfd' m', Settles (fun fuel => serve kc c fuel calls rfd) (items, rfd') ∧
      rfd'.Holds holds m' := by
  induction calls generalizing rfd m with
  | nil => exact ⟨[], rfd, m, .pure _, held⟩
  | cons call calls ih =>
    have one : ∃ out m', Settles (fun fuel => serveCall kc c fuel rfd call) out ∧
        Delivers kc (Rsfd.Holds holds) m' out := by
      cases call with
      | none =>
        obtain ⟨out, settles, delivers⟩ := yields.rsetDefaultRead held
        exact ⟨out, m, settles, delivers⟩
      | some untilbuf =>
        obtain ⟨out, settles, skipped, left, -, -, delivers⟩ :=
          yields.rsetDefaultForward untilbuf held
        exact ⟨out, left, settles, delivers⟩
    obtain ⟨⟨item, rfd₁⟩, m₁, settles, delivers⟩ := one
    have held₁ : ∃ m', rfd₁.Holds holds m' := by
      cases delivers with
      | eof empty => exact ⟨0, empty⟩
      | key left => exact ⟨_, left⟩
    obtain ⟨m', held₁⟩ := held₁
    obtain ⟨items, rfd', m'', rest, held'⟩ := ih held₁
    exact ⟨_, _, m'', settles.bind (rest.bind (.pure _)), held'⟩

def offered (kc : KeyControl Key) (m : Multiset (Key × Term)) : Option Key → Multiset (Key × Term)
  | none => m
  | some untilbuf => ahead kc untilbuf m

/-- What calls give of a collection: a least key of what each leaves to choose from, until nothing
is left. -/
inductive Served (kc : KeyControl Key) :
    List (Option Key) → Multiset (Key × Term) → List (Option (Key × Term)) →
      Multiset (Key × Term) → Prop
  | nil {m : Multiset (Key × Term)} : Served kc [] m [] m
  | eof {call : Option Key} {calls : List (Option Key)} {m m' : Multiset (Key × Term)}
      {items : List (Option (Key × Term))} : offered kc m call = 0 → Served kc calls 0 items m' →
      Served kc (call :: calls) m (none :: items) m'
  | key {call : Option Key} {calls : List (Option Key)} {m rest m' : Multiset (Key × Term)}
      {item : Key × Term} {items : List (Option (Key × Term))} :
      offered kc m call = item ::ₘ rest → (∀ other ∈ rest, kc.cmp item.1 other.1 ≤ 0) →
      Served kc calls rest items m' → Served kc (call :: calls) m (some item :: items) m'

theorem Seeks.serveCall (seeks : Seeks kc c holds) (held : rfd.Holds holds m) (call : Option Key) :
    ∃ out, Settles (fun fuel => serveCall kc c fuel rfd call) out ∧
      Delivers kc (Rsfd.Holds holds) (offered kc m call) out := by
  cases call with
  | none => exact seeks.yields.rsetDefaultRead held
  | some untilbuf => exact seeks.rsetDefaultForward untilbuf held

theorem Seeks.serve (seeks : Seeks kc c holds) (calls : List (Option Key))
    (held : rfd.Holds holds m) :
    ∃ items rfd' m', Settles (fun fuel => serve kc c fuel calls rfd) (items, rfd') ∧
      Served kc calls m items m' ∧ rfd'.Holds holds m' := by
  induction calls generalizing rfd m with
  | nil => exact ⟨[], rfd, m, .pure _, .nil, held⟩
  | cons call calls ih =>
    obtain ⟨⟨item, rfd₁⟩, settles, delivers⟩ := seeks.serveCall held call
    generalize left : offered kc m call = m₁ at delivers
    cases delivers with
    | eof empty =>
      obtain ⟨items, rfd', m', rest, served, held'⟩ := ih empty
      exact ⟨_, _, _, settles.bind (rest.bind (.pure _)), .eof left served, held'⟩
    | key others least =>
      obtain ⟨items, rfd', m', rest, served, held'⟩ := ih others
      exact ⟨_, _, _, settles.bind (rest.bind (.pure _)), .key left least served, held'⟩

theorem tempControl_seeks (kc : KeyControl Key) :
    Seeks kc (@tempControl Key Term) (TempHolds kc) where
  read := (tempControl_yields kc).read
  forward := nofun

end Zebra.Rset
