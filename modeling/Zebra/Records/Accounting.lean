import Mathlib.Data.List.Perm.Basic
import Zebra.Records.Blocks

/-!
# References to chains

The count in the first block of a chain is the number of index entries that refer to it.  While a
group of records is being flushed, the entries of those whose chains have been released do not count
until the group has been written.
-/

namespace Zebra.Records

open List Function

/-- The index entry of a record refers to the chain that begins with a block. -/
def refersTo (st : Store) (pending : List Nat) (dstType first sysno : Nat) : Bool :=
  match st.index sysno with
  | none => false
  | some entry => sysno ∉ pending ∧ entry.size ≠ 0 ∧ entry.next = first * 8 + dstType

def refers (st : Store) (pending : List Nat) (dstType first : Nat) : Nat :=
  (List.range st.indexLast).countP (refersTo st pending dstType first)

def Live (st : Store) (sysno : Nat) : Prop :=
  ∃ entry, st.index sysno = some entry ∧ entry.size ≠ 0

/-- The blocks of both classes, the counts and the entries fit together. -/
structure Accounts (st : Store) (chains : Nat → List (List Nat)) (free : Nat → List Nat)
    (pending : List Nat) : Prop where
  blocks : ∀ t, t < 2 → Blocks (st.classes t) (chains t) (free t) []
  refs : ∀ t, t < 2 → ∀ c ∈ chains t, ∀ first, c.head? = some first →
    ∃ b, (st.classes t).file first = some b ∧ 2 ≤ b.data.length ∧
      refOf b.data = refers st pending t first
  shared : ∀ t, t < 2 → ∀ c ∈ chains t, ∀ first, c.head? = some first →
    0 < refers st pending t first ∧ refers st pending t first ≤ cacheMax
  entries : ∀ s entry, st.index s = some entry → entry.size ≠ 0 → s ∉ pending →
    entry.next % 8 < 2 ∧ ∃ c ∈ chains (entry.next % 8), c.head? = some (entry.next / 8)
  known : ∀ s, st.indexLast ≤ s → st.index s = none

section

theorem refersTo_iff {st : Store} {pending : List Nat} {t first s : Nat} :
    refersTo st pending t first s = true ↔
      ∃ entry, st.index s = some entry ∧ s ∉ pending ∧ entry.size ≠ 0 ∧
        entry.next = first * 8 + t := by
  unfold refersTo
  cases st.index s with
  | none =>
    refine iff_of_false Bool.false_ne_true ?_
    rintro ⟨_, eq, _⟩
    cases eq
  | some entry =>
    rw [decide_eq_true_iff]
    constructor
    · exact fun holds => ⟨entry, rfl, holds⟩
    · rintro ⟨_, eq, holds⟩
      cases eq
      exact holds

theorem countP_eq_succ {p q : Nat → Bool} {l : List Nat} (nodup : l.Nodup) {s : Nat}
    (mem : s ∈ l) (counted : p s = true) (gone : q s = false)
    (same : ∀ r, r ≠ s → q r = p r) : l.countP p = l.countP q + 1 := by
  induction l with
  | nil => cases mem
  | cons r l induction =>
    obtain ⟨notIn, nodup⟩ := nodup_cons.mp nodup
    rcases mem_cons.mp mem with rfl | mem
    · have rest : l.countP p = l.countP q := by
        apply countP_congr
        intro r inside
        rw [same r]
        rintro rfl
        exact notIn inside
      rw [countP_cons_of_pos counted, rest, countP_cons_of_neg (by simp [gone])]
    · have other : r ≠ s := by
        rintro rfl
        exact notIn mem
      rw [countP_cons, countP_cons, same r other, induction nodup mem]
      omega

theorem countP_mem {p : Nat → Bool} {l : List Nat} {n : Nat} (nodup : l.Nodup)
    (less : ∀ s ∈ l, s < n) (iff : ∀ s, p s = true ↔ s ∈ l) :
      (List.range n).countP p = l.length := by
  rw [countP_eq_length_filter]
  apply Perm.length_eq
  apply (perm_ext_iff_of_nodup (nodup_range.filter _) nodup).mpr
  intro s
  rw [mem_filter, mem_range, iff]
  exact ⟨fun both => both.2, fun mem => ⟨less s mem, mem⟩⟩

theorem refers_congr {st other : Store} {pending pending' : List Nat} {t t' first first' : Nat}
    (last : other.indexLast = st.indexLast)
    (same : ∀ s, refersTo other pending' t' first' s = refersTo st pending t first s) :
    refers other pending' t' first' = refers st pending t first := by
  unfold refers
  rw [last]
  exact countP_congr fun s _ => by rw [same s]

theorem refOf_withRef {ref : Nat} (small : ref < 65536) (rest : List Byte) :
    refOf (withRef ref rest) = ref := by
  have value : refOf (withRef ref rest) = ref % 256 + 256 * (ref / 256 % 256) := rfl
  rw [value]
  omega

theorem refOf_prefix {ref : Nat} {data rest : List Byte} {n : Nat} (small : ref < 65536)
    (enough : 2 ≤ n) (starts : (withRef ref rest).take n <+: data) :
    2 ≤ data.length ∧ refOf data = ref := by
  obtain ⟨m, rfl⟩ : ∃ m, n = m + 2 := ⟨n - 2, by omega⟩
  obtain ⟨tail, rfl⟩ := starts
  have value : refOf ((withRef ref rest).take (m + 2) ++ tail) =
      ref % 256 + 256 * (ref / 256 % 256) := rfl
  refine ⟨?_, ?_⟩
  · rw [length_append, withRef, take_succ_cons, take_succ_cons, length_cons,
      length_cons]
    omega
  · rw [value]
    omega

end

section

variable {cls : BlockClass} {chains : List (List Nat)} {free taken : List Nat}

/-- A block keeps its place when only what it holds is written. -/
theorem Blocks.setData (blocks : Blocks cls chains free taken) {block : Nat} {b : Block}
    (found : cls.file block = some b) {data : List Byte} (fits : data.length ≤ cls.capacity) :
    Blocks (cls.setBlock block { b with data }) chains free taken := by
  have same : (cls.setBlock block { b with data }).nextOf = cls.nextOf := by
    funext c
    by_cases here : c = block
    · rw [here, nextOf_setBlock_self, BlockClass.nextOf, found]
      rfl
    · exact nextOf_setBlock_of_ne cls _ here
  constructor
  case capacity => exact blocks.capacity
  case last => exact blocks.last
  case freeList =>
    rw [same]
    exact blocks.freeList
  case chained =>
    rw [same]
    exact blocks.chained
  case once => exact blocks.once
  case there =>
    intro c inside
    by_cases here : c = block
    · rw [here, file_setBlock_self]
      rfl
    · rw [file_setBlock_of_ne cls _ here]
      exact blocks.there c inside
  case used => exact blocks.used
  case fits =>
    intro c old seen
    by_cases here : c = block
    · rw [here, file_setBlock_self] at seen
      cases seen
      exact fits
    · rw [file_setBlock_of_ne cls _ here] at seen
      exact blocks.fits c old seen

theorem Blocks.length_chain (blocks : Blocks cls chains free taken) {chain : List Nat}
    (mem : chain ∈ chains) : chain.length ≤ cls.blockLast := by
  have length := blocks.once.length_eq
  have part : chain.length ≤ chains.flatten.length :=
    (sublist_flatten_of_mem mem).length_le
  rw [length_append, length_append, length_range'] at length
  omega

variable {st : Store} {chains : Nat → List (List Nat)} {free : Nat → List Nat}
  {pending : List Nat}

theorem Accounts.start_ne (accounts : Accounts st chains free pending) {t : Nat} (low : t < 2)
    {c : List Nat} (mem : c ∈ chains t) {first : Nat} (head : c.head? = some first) :
    first ≠ 0 ∧ Follows (st.classes t).nextOf first c := by
  obtain ⟨start, eq, follows⟩ := (accounts.blocks t low).chained c mem
  rw [head] at eq
  cases eq
  refine ⟨?_, follows⟩
  cases c with
  | nil => cases head
  | cons b rest =>
    cases head
    exact follows.start_eq.2.1

/-- The reference of a record to its chain is taken back; when it was the last one, the chain is
released. -/
theorem Accounts.release (accounts : Accounts st chains free pending) {s : Nat}
    (live : Live st s) (new : s ∉ pending) :
    ∃ after chains' free', releaseBlocks st s = some after ∧
      Accounts after chains' free' (s :: pending) ∧ after.index = st.index ∧
      after.indexLast = st.indexLast ∧ after.cache = st.cache ∧
      after.indexFree = st.indexFree ∧ after.noRecords = st.noRecords := by
  obtain ⟨entry, found, size⟩ := live
  obtain ⟨low, c, mem, head⟩ := accounts.entries s entry found size new
  generalize type : entry.next % 8 = t at low mem
  generalize number : entry.next / 8 = first at head
  have next : entry.next = first * 8 + t := by omega
  obtain ⟨named, follows⟩ := accounts.start_ne low mem head
  obtain ⟨b, read, length, ref⟩ := accounts.refs t low c mem first head
  obtain ⟨positive, most⟩ := accounts.shared t low c mem first head
  have blocks := accounts.blocks t low
  have below : s < st.indexLast := by
    by_contra above
    rw [accounts.known s (by omega)] at found
    cases found
  -- the entry does not count any more
  have counted : refers st pending t first = refers st (s :: pending) t first + 1 := by
    apply countP_eq_succ nodup_range (mem_range.mpr below)
    · exact refersTo_iff.mpr ⟨entry, found, new, size, next⟩
    · rw [Bool.eq_false_iff]
      intro still
      obtain ⟨_, _, notIn, _⟩ := refersTo_iff.mp still
      exact notIn (mem_cons_self ..)
    · intro r other
      rw [Bool.eq_iff_iff, refersTo_iff, refersTo_iff, mem_cons, not_or]
      simp only [other, not_false_eq_true, true_and]
  have others : ∀ t' first', t' < 2 → first' * 8 + t' ≠ first * 8 + t →
      refers st (s :: pending) t' first' = refers st pending t' first' := by
    intro t' first' _ apart
    apply refers_congr rfl
    intro r
    rw [Bool.eq_iff_iff, refersTo_iff, refersTo_iff]
    constructor
    · rintro ⟨e, eq, notIn, rest⟩
      exact ⟨e, eq, fun inside => notIn (.tail _ inside), rest⟩
    · rintro ⟨e, eq, notIn, nonzero, at'⟩
      refine ⟨e, eq, fun inside => ?_, nonzero, at'⟩
      rcases mem_cons.mp inside with rfl | inside
      · rw [found] at eq
        cases eq
        exact apart (at'.symm.trans next)
      · exact notIn inside
  have fewer : (refOf b.data + 65535) % 65536 = refers st (s :: pending) t first := by
    rw [ref, counted]
    rw [counted] at most
    simp only [cacheMax] at most
    omega
  have guard : ¬ (entry.next = 0 ∨ 2 ≤ entry.next % 8) := by omega
  have run : releaseBlocks st s =
      if refers st (s :: pending) t first ≠ 0 then
        some (st.setClass t ((st.classes t).setBlock first
          { b with data := withRef (refers st (s :: pending) t first) (b.data.drop 2) }))
      else
        (Records.releaseLoop (st.classes t).blockLast (st.classes t) first).map fun cls =>
          { st.setClass t cls with totalBytes := st.totalBytes - entry.size } := by
    unfold releaseBlocks
    rw [found]
    dsimp only
    rw [if_neg guard, number, type, if_neg named, read]
    dsimp only
    rw [if_neg (by omega), fewer]
  by_cases more : refers st (s :: pending) t first ≠ 0
  · rw [run, if_pos more]
    generalize count : refers st (s :: pending) t first = n at *
    have small : n < 65536 := by
      simp only [cacheMax] at most
      omega
    have fits : (withRef n (b.data.drop 2)).length ≤ (st.classes t).capacity := by
      have old := blocks.fits first b read
      have eq : (withRef n (b.data.drop 2)).length = b.data.length - 2 + 2 := by
        rw [withRef, length_cons, length_cons, length_drop]
      omega
    refine ⟨_, chains, free, rfl, ?_, rfl, rfl, rfl, rfl, rfl⟩
    have classes : ∀ t', t' ≠ t → (st.setClass t ((st.classes t).setBlock first
        { b with data := withRef n (b.data.drop 2) })).classes t' = st.classes t' :=
      fun t' apart => update_of_ne apart _ _
    have here : (st.setClass t ((st.classes t).setBlock first
        { b with data := withRef n (b.data.drop 2) })).classes t =
          (st.classes t).setBlock first { b with data := withRef n (b.data.drop 2) } :=
      update_self _ _ _
    have same : ∀ t' first', refers (st.setClass t ((st.classes t).setBlock first
        { b with data := withRef n (b.data.drop 2) })) (s :: pending) t' first' =
          refers st (s :: pending) t' first' := fun _ _ => rfl
    constructor
    case blocks =>
      intro t' low'
      by_cases eq : t' = t
      · rw [eq, here]
        exact blocks.setData read fits
      · rw [classes t' eq]
        exact accounts.blocks t' low'
    case refs =>
      intro t' low' c' mem' first' head'
      rw [same]
      by_cases eq : first' * 8 + t' = first * 8 + t
      · have eqType : t' = t := by omega
        have eqFirst : first' = first := by omega
        subst eqType eqFirst
        rw [here, file_setBlock_self, count]
        refine ⟨_, rfl, ?_, refOf_withRef small _⟩
        rw [withRef, length_cons, length_cons]
        omega
      · obtain ⟨b', read', length', ref'⟩ := accounts.refs t' low' c' mem' first' head'
        rw [others t' first' low' eq]
        refine ⟨b', ?_, length', ref'⟩
        by_cases eqType : t' = t
        · subst eqType
          have apart : first' ≠ first := by
            rintro rfl
            exact eq rfl
          rw [here, file_setBlock_of_ne _ _ apart]
          exact read'
        · rw [classes t' eqType]
          exact read'
    case shared =>
      intro t' low' c' mem' first' head'
      rw [same]
      by_cases eq : first' * 8 + t' = first * 8 + t
      · have eqType : t' = t := by omega
        have eqFirst : first' = first := by omega
        subst eqType eqFirst
        rw [count]
        omega
      · rw [others t' first' low' eq]
        exact accounts.shared t' low' c' mem' first' head'
    case entries =>
      intro r e eq nonzero notIn
      exact accounts.entries r e eq nonzero fun inside => notIn (.tail _ inside)
    case known => exact accounts.known
  · rw [run, if_neg more]
    have none : refers st (s :: pending) t first = 0 := by omega
    have takenOut := blocks.take mem
    have there : ∀ d ∈ c, ((st.classes t).file d).isSome := fun d inside =>
      blocks.there d (Or.inr (mem_flatten.mpr ⟨c, mem, inside⟩))
    obtain ⟨cls, freed, loop, released, frame, _, _⟩ :=
      takenOut.releaseLoop follows there (blocks.length_chain mem)
    rw [loop]
    refine ⟨_, Function.update chains t ((chains t).erase c), Function.update free t freed, rfl, ?_,
      rfl, rfl, rfl, rfl, rfl⟩
    -- the chains that stay have no block of the released one
    have outside : ∀ c' ∈ (chains t).erase c, ∀ d ∈ c', d ∉ c := by
      intro c' mem' d inside also
      have apart := (takenOut.apart (mem_append_left [] also)).2
      exact apart (mem_flatten.mpr ⟨c', mem', inside⟩)
    have classes : ∀ t', t' ≠ t → (st.setClass t cls).classes t' = st.classes t' :=
      fun t' apart => update_of_ne apart _ _
    have here : (st.setClass t cls).classes t = cls := update_self _ _ _
    have same : ∀ t' first', refers { st.setClass t cls with
        totalBytes := st.totalBytes - entry.size } (s :: pending) t' first' =
          refers st (s :: pending) t' first' := fun _ _ => rfl
    have apart : ∀ t', t' < 2 → ∀ c' ∈ Function.update chains t ((chains t).erase c) t',
        ∀ first', c'.head? = some first' →
          c' ∈ chains t' ∧ first' * 8 + t' ≠ first * 8 + t := by
      intro t' low' c' mem' first' head'
      by_cases eqType : t' = t
      · subst eqType
        rw [update_self] at mem'
        refine ⟨mem_of_mem_erase mem', fun eq => ?_⟩
        have eqFirst : first' = first := by omega
        rw [eqFirst] at head'
        exact outside c' mem' first (mem_of_mem_head? head') (mem_of_mem_head? head)
      · rw [update_of_ne eqType] at mem'
        exact ⟨mem', by omega⟩
    constructor
    case blocks =>
      intro t' low'
      by_cases eq : t' = t
      · subst eq
        rw [update_self, update_self]
        dsimp only
        rw [here]
        exact released
      · rw [update_of_ne eq, update_of_ne eq]
        dsimp only
        rw [classes t' eq]
        exact accounts.blocks t' low'
    case refs =>
      intro t' low' c' mem' first' head'
      obtain ⟨old, differs⟩ := apart t' low' c' mem' first' head'
      obtain ⟨b', read', length', ref'⟩ := accounts.refs t' low' c' old first' head'
      rw [same, others t' first' low' differs]
      refine ⟨b', ?_, length', ref'⟩
      dsimp only
      by_cases eq : t' = t
      · subst eq
        rw [update_self] at mem'
        rw [here, frame first' (outside c' mem' first' (mem_of_mem_head? head'))]
        exact read'
      · rw [classes t' eq]
        exact read'
    case shared =>
      intro t' low' c' mem' first' head'
      obtain ⟨old, differs⟩ := apart t' low' c' mem' first' head'
      rw [same, others t' first' low' differs]
      exact accounts.shared t' low' c' old first' head'
    case entries =>
      intro r e eq nonzero notIn
      obtain ⟨low', c', mem', head'⟩ := accounts.entries r e eq nonzero
        fun inside => notIn (.tail _ inside)
      refine ⟨low', c', ?_, head'⟩
      by_cases eqType : e.next % 8 = t
      · rw [eqType] at mem' ⊢
        rw [update_self]
        apply (mem_erase_of_ne _).mpr mem'
        rintro rfl
        rw [head] at head'
        have eqFirst : first = e.next / 8 := Option.some.inj head'
        have rBelow : r < st.indexLast := by
          by_contra above
          have nothing := accounts.known r (by omega)
          have eq' : st.index r = some e := eq
          rw [nothing] at eq'
          cases eq'
        have counts : refersTo st (s :: pending) t first r = true :=
          refersTo_iff.mpr ⟨e, eq, notIn, nonzero, by omega⟩
        have positive := countP_pos_iff.mpr ⟨r, mem_range.mpr rBelow, counts⟩
        unfold refers at none
        omega
      · rw [update_of_ne eqType]
        exact mem'
    case known => exact accounts.known

end

end Zebra.Records
