import Mathlib.Data.Multiset.AddSub
import Mathlib.Data.Multiset.Basic
import Zebra.Lib.Fuel
import Zebra.Rset.KeyControl

/-!
# Result sets

`rset.c`: a result set is a sequence of keys, each with its term, seen through the functions of its
type.  Reading counts the records seen; a forward uses the type's own function once enough of them
are counted, else it reads until a key is not a whole record behind.

What a result set has still to give is a collection of keys, given in nondecreasing order.
-/

namespace Zebra.Rset

open Multiset

/-- `f_read` and `f_forward` of a `struct rset_control`; `σ` is what `rfd->priv` points to.  A read
gives a key and its term, or nothing at the end. -/
structure RsetControl (σ Key Term : Type) where
  fRead : Nat → σ → Option (Option (Key × Term) × σ)
  fForward : Option (Nat → σ → Key → Option (Option (Key × Term) × σ))

/-- `struct rset`, with what `f_open` makes of it. -/
structure RSet (σ : Type) where
  hitsLimit : Nat
  fOpen : σ

structure Rsfd (σ Key : Type) where
  hitsLimit : Nat
  countedItems : Nat
  countedBuf : Option Key
  priv : σ

def rsetOpen {σ Key : Type} (rs : RSet σ) : Rsfd σ Key :=
  { hitsLimit := rs.hitsLimit, countedItems := 0, countedBuf := none, priv := rs.fOpen }

variable {σ Key Term : Type} (kc : KeyControl Key) (c : RsetControl σ Key Term)

/-- The counting in `rset_default_read` of a key that has been read. -/
def countItem (rfd : Rsfd σ Key) (buf : Key) : Rsfd σ Key :=
  let gotScope := if rfd.countedItems = 0 then kc.scope + 1
    else (rfd.countedBuf.map (kc.cmp buf)).getD 0
  if gotScope > kc.scope then
    { rfd with countedBuf := some buf, countedItems := rfd.countedItems + 1 }
  else rfd

def rsetDefaultRead (fuel : Nat) (rfd : Rsfd σ Key) : Option (Option (Key × Term) × Rsfd σ Key) :=
    do
  let (item, priv) ← c.fRead fuel rfd.priv
  match item with
  | none => some (none, { rfd with priv })
  | some (buf, term) => some (some (buf, term), countItem kc { rfd with priv } buf)

/-- The loop of `rset_default_forward` for a type without a function of its own. -/
def readUntil : Nat → Rsfd σ Key → Key → Option (Option (Key × Term) × Rsfd σ Key)
  | 0, _, _ => none
  | fuel + 1, rfd, untilbuf => do
      let (item, rfd) ← rsetDefaultRead kc c fuel rfd
      match item with
      | none => some (none, rfd)
      | some (buf, term) =>
        if kc.cmp untilbuf buf < kc.scope then some (some (buf, term), rfd)
        else readUntil fuel rfd untilbuf

def rsetDefaultForward (fuel : Nat) (rfd : Rsfd σ Key) (untilbuf : Key) :
    Option (Option (Key × Term) × Rsfd σ Key) :=
  match c.fForward with
  | some fForward =>
    if rfd.countedItems ≥ rfd.hitsLimit then do
      let (item, priv) ← fForward fuel rfd.priv untilbuf
      some (item, { rfd with priv })
    else readUntil kc c fuel rfd untilbuf
  | none => readUntil kc c fuel rfd untilbuf

/-- All that `rset_read` gives, read after read. -/
def rsetReadAll : Nat → Rsfd σ Key → Option (List (Key × Term))
  | 0, _ => none
  | fuel + 1, rfd => do
      let (item, rfd) ← rsetDefaultRead kc c fuel rfd
      match item with
      | none => some []
      | some item => do
          let rest ← rsetReadAll fuel rfd
          some (item :: rest)

variable {kc c}

/-- What comes of a read when `m` is left: a least key of it, or the end. -/
inductive Delivers (kc : KeyControl Key) (holds : σ → Multiset (Key × Term) → Prop) :
    Multiset (Key × Term) → Option (Key × Term) × σ → Prop
  /-- Nothing is left. -/
  | eof {s : σ} : holds s 0 → Delivers kc holds 0 (none, s)
  | key {item : Key × Term} {rest : Multiset (Key × Term)} {s : σ} :
      holds s rest → (∀ other ∈ rest, kc.cmp item.1 other.1 ≤ 0) →
      Delivers kc holds (item ::ₘ rest) (some item, s)

/-- What comes of a forward: keys a scope behind may be left out. -/
def Forwards (kc : KeyControl Key) (holds : σ → Multiset (Key × Term) → Prop) (untilbuf : Key)
    (m : Multiset (Key × Term)) (out : Option (Key × Term) × σ) : Prop :=
  ∃ skipped left : Multiset (Key × Term), m = skipped + left ∧
    (∀ item ∈ skipped, kc.scope ≤ kc.cmp untilbuf item.1) ∧
    Delivers kc holds left out

/-- A type of result set whose states hold collections of keys that it gives in nondecreasing
order; its forward behaves like a read, but it may skip some items first. -/
structure Yields (kc : KeyControl Key) (c : RsetControl σ Key Term)
    (holds : σ → Multiset (Key × Term) → Prop) : Prop where
  read : ∀ s m, holds s m → ∃ out, Settles (fun fuel => c.fRead fuel s) out ∧
    Delivers kc holds m out
  forward : ∀ fForward, c.fForward = some fForward → ∀ s m untilbuf, holds s m →
    ∃ out, Settles (fun fuel => fForward fuel s untilbuf) out ∧ Forwards kc holds untilbuf m out

def Rsfd.Holds (holds : σ → Multiset (Key × Term) → Prop) (rfd : Rsfd σ Key)
    (m : Multiset (Key × Term)) : Prop :=
  holds rfd.priv m

variable {holds : σ → Multiset (Key × Term) → Prop}

@[simp] theorem countItem_priv (rfd : Rsfd σ Key) (buf : Key) :
    (countItem kc rfd buf).priv = rfd.priv := by
  simp only [countItem]
  split <;> split <;> rfl

variable {m : Multiset (Key × Term)} {rfd : Rsfd σ Key}

theorem Yields.rsetDefaultRead (yields : Yields kc c holds) (held : rfd.Holds holds m) :
    ∃ out, Settles (fun fuel => rsetDefaultRead kc c fuel rfd) out ∧
      Delivers kc (Rsfd.Holds holds) m out := by
  obtain ⟨⟨item, priv⟩, settles, delivers⟩ := yields.read _ _ held
  cases delivers with
  | eof empty => exact ⟨_, settles.bind (.pure _), .eof empty⟩
  | key left least =>
    refine ⟨_, settles.bind (.pure _), .key ?_ least⟩
    simpa [Rsfd.Holds] using left

theorem Yields.readUntil (yields : Yields kc c holds) (untilbuf : Key) (held : rfd.Holds holds m) :
    ∃ out, Settles (fun fuel => readUntil kc c fuel rfd untilbuf) out ∧
      Forwards kc (Rsfd.Holds holds) untilbuf m out := by
  induction m using strongInductionOn generalizing rfd with
  | ih m ih =>
    obtain ⟨⟨item, rfd'⟩, settles, delivers⟩ := yields.rsetDefaultRead held
    cases delivers with
    | eof empty =>
      refine ⟨_, .step (fun _ => rfl) settles (.pure _), 0, 0, rfl, ?_, .eof empty⟩
      simp
    | @key item rest _ left least =>
      by_cases behind : kc.cmp untilbuf item.1 < kc.scope
      · refine ⟨(some item, rfd'), .step (fun _ => rfl) settles ?_, 0, _,
          (Multiset.zero_add _).symm, ?_,
          .key left least⟩
        · simp only [if_pos behind]
          exact .pure _
        · simp
      · obtain ⟨out, later, skipped, left, rest_eq, skipped_behind, delivers⟩ :=
          ih rest (lt_cons_self rest item) left
        refine ⟨out, .step (fun _ => rfl) settles ?_, item ::ₘ skipped, left, ?_, ?_, delivers⟩
        · simpa only [if_neg behind] using later
        · rw [rest_eq, cons_add]
        · intro other mem
          rcases mem_cons.mp mem with rfl | mem
          · omega
          · exact skipped_behind other mem

theorem Yields.rsetDefaultForward (yields : Yields kc c holds) (untilbuf : Key)
    (held : rfd.Holds holds m) :
    ∃ out, Settles (fun fuel => rsetDefaultForward kc c fuel rfd untilbuf) out ∧
      Forwards kc (Rsfd.Holds holds) untilbuf m out := by
  unfold Zebra.Rset.rsetDefaultForward
  split
  · rename_i fForward has_forward
    split
    · obtain ⟨⟨item, priv⟩, settles, skipped, left, split, behind, delivers⟩ :=
        yields.forward fForward has_forward _ _ untilbuf held
      refine ⟨_, settles.bind (.pure _), skipped, left, split, behind, ?_⟩
      cases delivers with
      | eof empty => exact .eof empty
      | key left least => exact .key left least
    · exact yields.readUntil untilbuf held
  · exact yields.readUntil untilbuf held

theorem Yields.rsetReadAll (yields : Yields kc c holds) (held : rfd.Holds holds m) :
    ∃ keys, Settles (fun fuel => rsetReadAll kc c fuel rfd) keys ∧ (keys : Multiset _) = m ∧
      keys.Pairwise fun a b => kc.cmp a.1 b.1 ≤ 0 := by
  induction m using strongInductionOn generalizing rfd with
  | ih m ih =>
    obtain ⟨⟨item, rfd'⟩, settles, delivers⟩ := yields.rsetDefaultRead held
    cases delivers with
    | eof empty => exact ⟨[], .step (fun _ => rfl) settles (.pure _), rfl, .nil⟩
    | @key item rest _ left least =>
      obtain ⟨keys, later, keys_eq, sorted⟩ := ih rest (lt_cons_self rest item) left
      refine ⟨item :: keys, .step (fun _ => rfl) settles (later.bind (.pure _)), ?_, ?_⟩
      · rw [← cons_coe, keys_eq]
      · refine List.pairwise_cons.mpr ⟨fun other mem => least other ?_, sorted⟩
        rw [← keys_eq]
        exact mem

/-- `rstemp.c`: the keys in the file from the current position on, all of the set's one term. -/
def tempControl : RsetControl (List (Key × Term)) Key Term where
  fRead _ s := some (s.head?, s.tail)
  fForward := none

/-- A temporary set holds the keys written to it, if they were written in order. -/
def TempHolds (kc : KeyControl Key) (s : List (Key × Term)) (m : Multiset (Key × Term)) : Prop :=
  (s : Multiset _) = m ∧ s.Pairwise fun a b => kc.cmp a.1 b.1 ≤ 0

theorem tempControl_yields (kc : KeyControl Key) :
    Yields kc (@tempControl Key Term) (TempHolds kc) where
  read s m held := by
    obtain ⟨rfl, sorted⟩ := held
    cases s with
    | nil => exact ⟨(none, []), .pure _, .eof (show TempHolds kc [] 0 from ⟨rfl, .nil⟩)⟩
    | cons item s =>
      obtain ⟨least, sorted⟩ := List.pairwise_cons.mp sorted
      exact ⟨(some item, s), .pure _, .key (show TempHolds kc s s from ⟨rfl, sorted⟩) least⟩
  forward := nofun

end Zebra.Rset
