import Mathlib.Data.List.Perm.Subperm
import Zebra.Bfile.Buckets

/-!
# Shadow files with a hash table

Each bucket is once on the chain of what it maps, and all but the last of a chain are full.  A new
block takes a free slot or a new bucket behind the last one.
-/

namespace Zebra.Bfile

open List Function Table

/-- Every number is mapped to one, and one is mapped to it. -/
structure OneToOne (related : Nat → Nat → Prop) : Prop where
  single : ∀ no vno other, related no vno → related no other → vno = other
  injective : ∀ no other vno, related no vno → related other vno → no = other

theorem OneToOne.add {related extended : Nat → Nat → Prop} (one : OneToOne related) {no vno : Nat}
    (newNo : ∀ v, ¬ related no v) (newVno : ∀ n, ¬ related n vno)
    (grows : ∀ n v, extended n v ↔ related n v ∨ n = no ∧ v = vno) : OneToOne extended := by
  constructor
  · intro n v w first second
    rcases (grows n v).mp first with old | ⟨rfl, rfl⟩
    · rcases (grows n w).mp second with also | ⟨rfl, rfl⟩
      · exact one.single n v w old also
      · exact absurd old (newNo v)
    · rcases (grows n w).mp second with also | ⟨_, eq⟩
      · exact absurd also (newNo w)
      · exact eq.symm
  · intro n m v first second
    rcases (grows n v).mp first with old | ⟨rfl, rfl⟩
    · rcases (grows m v).mp second with also | ⟨rfl, rfl⟩
      · exact one.injective n m v old also
      · exact absurd old (newVno n)
    · rcases (grows m v).mp second with also | ⟨eq, _⟩
      · exact absurd also (newVno m)
      · exact eq.symm

theorem OneToOne.congr {related other : Nat → Nat → Prop} (one : OneToOne related)
    (same : ∀ n v, other n v ↔ related n v) : OneToOne other where
  single n v w first second := one.single n v w ((same n v).mp first) ((same n w).mp second)
  injective n m v first second := one.injective n m v ((same n v).mp first) ((same m v).mp second)

/-- A table maps a number: it is in use in one of the buckets. -/
def Table.Stored (table : Table) (head : CFileHead) (no vno : Nat) : Prop :=
  ∃ b, head.firstBucket ≤ b ∧ b < head.nextBucket ∧ (no, vno) ∈ table.used b

/-- The chains of a table hold each bucket once, on the chain of what it maps. -/
structure Sound (table : Table) (chain : Nat → List Nat) (head : CFileHead) (array : Nat → Nat) :
    Prop where
  hashSize : 2 < head.hashSize
  area : hashWords + head.hashSize ≤ head.firstBucket * hashWords
  order : head.firstBucket ≤ head.nextBucket
  positive : 0 < head.nextBlock
  follows : ∀ h, h < head.hashSize → Follows table.next (array h) (chain h)
  distinct : ∀ h, h < head.hashSize → (chain h).Nodup
  mem : ∀ h, h < head.hashSize → ∀ b, b ∈ chain h ↔
    head.firstBucket ≤ b ∧ b < head.nextBucket ∧ table.owner b = h
  slots : ∀ b, head.firstBucket ≤ b → b < head.nextBucket → ∀ slot ∈ table.used b,
    slot.2 ≠ 0 ∧ slot.2 < head.nextBlock ∧ cfHash head slot.1 = table.owner b
  full : ∀ b, head.firstBucket ≤ b → b < head.nextBucket → table.next b ≠ 0 →
    (table.used b).length = hashBucket
  one : OneToOne (table.Stored head)

section

variable {table : Table} {chain : Nat → List Nat} {head : CFileHead} {array : Nat → Nat}

theorem cfHash_lt (some : 2 < head.hashSize) (no : Nat) : cfHash head no < head.hashSize :=
  Nat.mod_lt _ (by omega)

theorem Sound.mapped (sound : Sound table chain head array) {b : Nat}
    (above : head.firstBucket ≤ b) (below : b < head.nextBucket) :
    ∀ slot ∈ table.used b, slot.2 ≠ 0 :=
  fun slot mem => (sound.slots b above below slot mem).1

theorem Sound.find_some (sound : Sound table chain head array) {b no vno : Nat}
    (above : head.firstBucket ≤ b) (below : b < head.nextBucket)
    (found : (table.bucket b).find no = some vno) : (no, vno) ∈ table.used b := by
  rw [bucket, find_bucketOf (sound.mapped above below)] at found
  obtain ⟨slot, seen, rfl⟩ := Option.map_eq_some_iff.mp found
  have same : slot.1 = no := of_decide_eq_true (find?_some seen :)
  have mem := mem_of_find?_eq_some seen
  rw [← same]
  exact mem

theorem Sound.find_none (sound : Sound table chain head array) {b no : Nat}
    (above : head.firstBucket ≤ b) (below : b < head.nextBucket)
    (found : (table.bucket b).find no = none) (vno : Nat) : (no, vno) ∉ table.used b := by
  rw [bucket, find_bucketOf (sound.mapped above below)] at found
  intro mem
  exact find?_eq_none.mp (Option.map_eq_none_iff.mp found) _ mem (decide_eq_true rfl)

theorem Sound.length_chain (sound : Sound table chain head array) {h : Nat}
    (low : h < head.hashSize) : (chain h).length ≤ head.nextBucket := by
  have inside : chain h ⊆ List.range head.nextBucket := by
    intro b mem
    exact mem_range.mpr ((sound.mem h low b).mp mem).2.1
  calc (chain h).length ≤ (List.range head.nextBucket).length :=
        ((sound.distinct h low).subperm inside).length_le
    _ = head.nextBucket := length_range

theorem Sound.stored_iff (sound : Sound table chain head array) (no vno : Nat) :
    table.Stored head no vno ↔ ∃ b ∈ chain (cfHash head no), (no, vno) ∈ table.used b := by
  have low := cfHash_lt sound.hashSize no
  constructor
  · rintro ⟨b, above, below, mem⟩
    obtain ⟨_, _, hash⟩ := sound.slots b above below _ mem
    exact ⟨b, (sound.mem _ low b).mpr ⟨above, below, hash.symm⟩, mem⟩
  · rintro ⟨b, inside, mem⟩
    obtain ⟨above, below, _⟩ := (sound.mem _ low b).mp inside
    exact ⟨b, above, below, mem⟩

end

/-- A shadow file with a hash table. -/
structure HashForm (table : Table) (chain : Nat → List Nat) (cf : CFile) : Prop where
  state : cf.head.state = .hash
  coherent : Coherent table cf.head.firstBucket cf.head.nextBucket cf
  sound : Sound table chain cf.head cf.array
  size : cf.file.size ≤ cf.head.nextBucket * hashWords

section

variable {table : Table} {chain : Nat → List Nat} {cf : CFile}

theorem HashForm.same (form : HashForm table chain cf) {after : CFile}
    (coherent : Coherent table cf.head.firstBucket cf.head.nextBucket after)
    (same : SameIndex cf.head.firstBucket cf.head.nextBucket cf after) :
    HashForm table chain after where
  state := by rw [same.head]; exact form.state
  coherent := by rw [same.head]; exact coherent
  sound := by rw [same.head, same.array]; exact form.sound
  size := by
    have := same.size
    have := form.size
    rw [same.head]
    omega

theorem HashForm.cfLookupHash (form : HashForm table chain cf) (no : Nat) :
    ∃ after found, cfLookupHash cf no = some (after, found) ∧ HashForm table chain after ∧
      SameIndex cf.head.firstBucket cf.head.nextBucket cf after ∧
      (∀ vno, found = some vno → table.Stored cf.head no vno) ∧
      (found = none → ∀ vno, ¬ table.Stored cf.head no vno) := by
  have low := cfHash_lt form.sound.hashSize no
  unfold Bfile.cfLookupHash
  dsimp only
  cases first : (cf.chain (cfHash cf.head no)).findSome? fun hb => hb.ph.find no with
  | some vno =>
    have same : SameIndex cf.head.firstBucket cf.head.nextBucket cf
        { cf with noHits := cf.noHits + 1 } :=
      SameIndex.counted _ _ cf (cf.noHits + 1) cf.noMiss
    refine ⟨_, _, rfl, form.same (form.coherent.congr rfl rfl) same, same, fun other eq => ?_,
      fun eq => (by cases eq)⟩
    obtain ⟨p, mem, found⟩ := exists_of_findSome?_eq_some first
    obtain ⟨above, below, ph, _⟩ := form.coherent.memory p (mem_filter.mp mem).1
    cases eq
    rw [ph] at found
    exact ⟨_, above, below, form.sound.find_some above below found⟩
  | none =>
    have unseen : ∀ p ∈ cf.buckets, p.hno = cfHash cf.head no → p.ph.find no = none := by
      intro p mem hno
      exact findSome?_eq_none_iff.mp first p
        (mem_filter.mpr ⟨mem, decide_eq_true hno⟩)
    have inside := fun b mem => (form.sound.mem _ low b).mp mem
    obtain ⟨after, found, run, coherent, same, some, none⟩ :=
      form.coherent.lookupChain (form.sound.follows _ low) inside (form.sound.length_chain low)
        unseen
    refine ⟨after, found, run, form.same coherent same, same, fun vno eq => ?_, fun eq vno => ?_⟩
    · obtain ⟨b, mem, holds⟩ := some vno eq
      obtain ⟨above, below, _⟩ := inside b mem
      exact ⟨b, above, below, form.sound.find_some above below holds⟩
    · rw [form.sound.stored_iff]
      rintro ⟨b, mem, holds⟩
      obtain ⟨above, below, _⟩ := inside b mem
      exact form.sound.find_none above below ((none eq).1 b mem) vno holds

end

section

variable {table : Table} {chain : Nat → List Nat} {head : CFileHead} {array : Nat → Nat}

def Table.fill (table : Table) (number no vno : Nat) : Table :=
  { table with used := Function.update table.used number (table.used number ++ [(no, vno)]) }

theorem Table.fill_used_self (number no vno : Nat) :
    (table.fill number no vno).used number = table.used number ++ [(no, vno)] :=
  update_self _ _ _

theorem Table.fill_used_of_ne {number b : Nat} (apart : b ≠ number) (no vno : Nat) :
    (table.fill number no vno).used b = table.used b :=
  update_of_ne apart _ _

theorem Table.fill_bucket (table : Table) {number : Nat}
    (mapped : ∀ slot ∈ table.used number, slot.2 ≠ 0)
    (free : (table.used number).length < hashBucket) (no vno : Nat) :
    (table.bucket number).fill no vno = some ((table.fill number no vno).bucket number) := by
  rw [bucket, bucket, fill_used_self]
  exact fill_bucketOf mapped free no vno

/-- In `cf_new_hash`: `next_bucket` of the last bucket of a chain. -/
def Table.link (table : Table) (last number : Nat) : Table :=
  { table with next := Function.update table.next last number }

/-- A new bucket behind the last one of a chain, if it has one. -/
def Table.append (table : Table) (last : Option Nat) (number hno no vno : Nat) : Table where
  used := Function.update table.used number [(no, vno)]
  next :=
    match last with
    | none => Function.update table.next number 0
    | some b => Function.update (Function.update table.next b number) number 0
  owner := Function.update table.owner number hno

theorem Sound.fresh (sound : Sound table chain head array) (no : Nat) :
    ¬ table.Stored head no head.nextBlock := by
  rintro ⟨b, above, below, mem⟩
  exact Nat.lt_irrefl _ (sound.slots b above below _ mem).2.1

theorem Sound.stored_fill {b no : Nat} (above : head.firstBucket ≤ b) (below : b < head.nextBucket)
    (n v : Nat) :
    (table.fill b no head.nextBlock).Stored { head with nextBlock := head.nextBlock + 1 } n v ↔
      table.Stored head n v ∨ n = no ∧ v = head.nextBlock := by
  unfold Table.Stored
  dsimp only
  constructor
  · rintro ⟨c, low, high, mem⟩
    by_cases same : c = b
    · subst same
      rw [fill_used_self, mem_append, mem_singleton] at mem
      rcases mem with mem | eq
      · exact .inl ⟨c, low, high, mem⟩
      · cases eq
        exact .inr ⟨rfl, rfl⟩
    · rw [fill_used_of_ne same] at mem
      exact .inl ⟨c, low, high, mem⟩
  · rintro (⟨c, low, high, mem⟩ | ⟨rfl, rfl⟩)
    · refine ⟨c, low, high, ?_⟩
      by_cases same : c = b
      · subst same
        rw [fill_used_self]
        exact mem_append_left _ mem
      · rw [fill_used_of_ne same]
        exact mem
    · refine ⟨b, above, below, ?_⟩
      rw [fill_used_self]
      exact mem_append_right _ (mem_singleton_self _)

theorem Sound.fill (sound : Sound table chain head array) {b no : Nat}
    (above : head.firstBucket ≤ b) (below : b < head.nextBucket)
    (owner : table.owner b = cfHash head no) (free : (table.used b).length < hashBucket)
    (new : ∀ v, ¬ table.Stored head no v) :
    Sound (table.fill b no head.nextBlock) chain { head with nextBlock := head.nextBlock + 1 }
      array where
  hashSize := sound.hashSize
  area := sound.area
  order := sound.order
  positive := Nat.succ_pos _
  follows := sound.follows
  distinct := sound.distinct
  mem := sound.mem
  slots := by
    intro c low high slot mem
    by_cases same : c = b
    · subst same
      rw [fill_used_self, mem_append, mem_singleton] at mem
      rcases mem with mem | rfl
      · obtain ⟨mapped, less, hash⟩ := sound.slots c low high slot mem
        exact ⟨mapped, Nat.lt_succ_of_lt less, hash⟩
      · exact ⟨Nat.ne_of_gt sound.positive, Nat.lt_succ_self _, owner.symm⟩
    · rw [fill_used_of_ne same] at mem
      obtain ⟨mapped, less, hash⟩ := sound.slots c low high slot mem
      exact ⟨mapped, Nat.lt_succ_of_lt less, hash⟩
  full := by
    intro c low high named
    by_cases same : c = b
    · subst same
      have all := sound.full c low high named
      omega
    · rw [fill_used_of_ne same]
      exact sound.full c low high named
  one := sound.one.add new sound.fresh (Sound.stored_fill above below)

theorem Sound.stored_append (sound : Sound table chain head array) (no hno : Nat)
    (last : Option Nat) (n v : Nat) :
    (table.append last head.nextBucket hno no head.nextBlock).Stored
        { head with nextBlock := head.nextBlock + 1, nextBucket := head.nextBucket + 1 } n v ↔
      table.Stored head n v ∨ n = no ∧ v = head.nextBlock := by
  have order := sound.order
  unfold Table.Stored Table.append
  dsimp only
  constructor
  · rintro ⟨c, low, high, mem⟩
    by_cases same : c = head.nextBucket
    · rw [same, update_self, mem_singleton] at mem
      cases mem
      exact .inr ⟨rfl, rfl⟩
    · rw [update_of_ne same] at mem
      exact .inl ⟨c, low, by omega, mem⟩
  · rintro (⟨c, low, high, mem⟩ | ⟨rfl, rfl⟩)
    · refine ⟨c, low, by omega, ?_⟩
      rw [update_of_ne (Nat.ne_of_lt high)]
      exact mem
    · refine ⟨head.nextBucket, order, Nat.lt_succ_self _, ?_⟩
      rw [update_self]
      exact mem_singleton_self _

/-- In `cf_new_hash`: `*bucketpp` of the end of a chain. -/
def linked (array : Nat → Nat) (last : Option Nat) (hno number : Nat) : Nat → Nat :=
  match last with
  | none => Function.update array hno number
  | some _ => array

theorem Sound.append (sound : Sound table chain head array) {no : Nat}
    (new : ∀ v, ¬ table.Stored head no v)
    (full : ∀ b ∈ (chain (cfHash head no)).getLast?, (table.used b).length = hashBucket) :
    Sound (table.append (chain (cfHash head no)).getLast? head.nextBucket (cfHash head no) no
        head.nextBlock)
      (Function.update chain (cfHash head no) (chain (cfHash head no) ++ [head.nextBucket]))
      { head with nextBlock := head.nextBlock + 1, nextBucket := head.nextBucket + 1 }
      (linked array (chain (cfHash head no)).getLast? (cfHash head no) head.nextBucket) := by
  have order := sound.order
  have area := sound.area
  have nonzero : head.nextBucket ≠ 0 := by
    simp only [hashWords] at area
    omega
  generalize hash : cfHash head no = h at full ⊢
  have low : h < head.hashSize := by
    rw [← hash]
    exact cfHash_lt sound.hashSize no
  have outside : ∀ k, k < head.hashSize → head.nextBucket ∉ chain k := by
    intro k small mem
    exact Nat.lt_irrefl _ ((sound.mem k small _).mp mem).2.1
  have before : ∀ k, k < head.hashSize → ∀ b ∈ chain k, b ≠ head.nextBucket := by
    intro k small b mem eq
    rw [eq] at mem
    exact outside k small mem
  have others : ∀ b, b ≠ head.nextBucket → (∀ c ∈ (chain h).getLast?, b ≠ c) →
      (table.append (chain h).getLast? head.nextBucket h no head.nextBlock).next b =
        table.next b := by
    intro b apart notLast
    unfold Table.append
    dsimp only
    cases last : (chain h).getLast? with
    | none => exact update_of_ne apart _ _
    | some c =>
      dsimp only
      rw [update_of_ne apart, update_of_ne (notLast c last)]
  have stop : (table.append (chain h).getLast? head.nextBucket h no head.nextBlock).next
      head.nextBucket = 0 := by
    unfold Table.append
    dsimp only
    cases (chain h).getLast? with
    | none => exact update_self _ _ _
    | some c => exact update_self _ _ _
  constructor
  case hashSize => exact sound.hashSize
  case area => exact area
  case order => exact Nat.le_succ_of_le order
  case positive => exact Nat.succ_pos _
  case follows =>
    intro k small
    by_cases same : k = h
    · subst same
      rw [update_self]
      cases last : (chain k).getLast? with
      | none =>
        have empty : chain k = [] := getLast?_eq_none_iff.mp last
        rw [last] at stop
        rw [linked, update_self, empty]
        apply Follows.cons nonzero
        rw [stop]
        exact Follows.nil
      | some c =>
        rw [last] at stop others
        have apart : c ≠ head.nextBucket := before k small c (mem_of_getLast? last)
        apply (sound.follows k small).append (sound.distinct k small) last nonzero
        · unfold Table.append
          dsimp only
          rw [update_of_ne apart, update_self]
        · exact stop
        · intro b mem notLast
          apply others b (before k small b mem)
          intro d eq
          cases eq
          exact notLast
    · rw [update_of_ne same]
      have start : linked array (chain h).getLast? h head.nextBucket k = array k := by
        cases (chain h).getLast? with
        | none => exact update_of_ne same _ _
        | some c => rfl
      rw [start]
      apply (sound.follows k small).congr
      intro b mem
      apply others b (before k small b mem)
      intro c last eq
      have here := ((sound.mem k small b).mp mem).2.2
      have there := ((sound.mem h low c).mp (mem_of_getLast? last)).2.2
      rw [eq] at here
      exact same (here.symm.trans there)
  case distinct =>
    intro k small
    by_cases same : k = h
    · subst same
      rw [update_self]
      apply nodup_append.mpr
      refine ⟨sound.distinct k small, nodup_singleton _, fun b mem c there => ?_⟩
      rw [mem_singleton.mp there]
      exact before k small b mem
    · rw [update_of_ne same]
      exact sound.distinct k small
  case mem =>
    intro k small b
    have old := sound.mem k small b
    unfold Table.append
    dsimp only
    by_cases new : b = head.nextBucket
    · rw [new, update_self]
      by_cases same : k = h
      · subst same
        rw [update_self]
        have inside : head.nextBucket ∈ chain k ++ [head.nextBucket] :=
          mem_append_right _ (mem_singleton_self _)
        exact iff_of_true inside ⟨order, Nat.lt_succ_self _, rfl⟩
      · rw [update_of_ne same]
        exact iff_of_false (outside k small) fun all => same all.2.2.symm
    · rw [update_of_ne new]
      have range : b < head.nextBucket + 1 ↔ b < head.nextBucket := by omega
      rw [range, ← old]
      by_cases same : k = h
      · subst same
        rw [update_self, mem_append, mem_singleton]
        exact or_iff_left new
      · rw [update_of_ne same]
  case slots =>
    intro b above below slot mem
    unfold Table.append at mem ⊢
    dsimp only at mem below above ⊢
    by_cases new : b = head.nextBucket
    · rw [new, update_self, mem_singleton] at mem
      rw [new, update_self, mem]
      exact ⟨Nat.ne_of_gt sound.positive, Nat.lt_succ_self _, hash⟩
    · rw [update_of_ne new] at mem
      rw [update_of_ne new]
      obtain ⟨mapped, less, at'⟩ := sound.slots b above (by omega) slot mem
      exact ⟨mapped, Nat.lt_succ_of_lt less, at'⟩
  case full =>
    intro b above below named
    dsimp only at above below
    by_cases new : b = head.nextBucket
    · rw [new] at named
      exact absurd stop named
    · have used : (table.append (chain h).getLast? head.nextBucket h no head.nextBlock).used b =
          table.used b := update_of_ne new _ _
      rw [used]
      by_cases isLast : (chain h).getLast? = some b
      · exact full b isLast
      · apply sound.full b above (by omega)
        rw [others b new fun c last eq => isLast (by rw [eq]; exact last)] at named
        exact named
  case one => exact sound.one.add new sound.fresh (sound.stored_append _ _ _)

theorem Coherent.pushNew {low high : Nat} {cf : CFile} (held : Coherent table low high cf)
    {table' : Table} (order : low ≤ high) (used : ∀ b, b ≠ high → table'.used b = table.used b)
    (next : ∀ b, b ≠ high → table'.next b = table.next b)
    (owner : ∀ b, b ≠ high → table'.owner b = table.owner b)
    (width : (table'.used high).length ≤ hashBucket)
    (room : cf.buckets.length < maxBucketInMemory) :
    Coherent table' low (high + 1)
      (cf.push { ph := table'.bucket high, hno := table'.owner high, dirty := true }) := by
  have others : ∀ b, b ≠ high → table'.bucket b = table.bucket b := by
    intro b apart
    rw [bucket, used b apart, next b apart]
    rfl
  constructor
  case memory =>
    intro q mem
    rcases mem_cons.mp mem with rfl | mem
    · exact ⟨order, Nat.lt_succ_self _, rfl, rfl⟩
    · obtain ⟨above, below, ph, hno⟩ := held.memory q mem
      rw [others _ (Nat.ne_of_lt below), owner _ (Nat.ne_of_lt below)]
      exact ⟨above, Nat.lt_succ_of_lt below, ph, hno⟩
  case clean =>
    intro q mem kept
    rcases mem_cons.mp mem with rfl | mem
    · cases kept
    · exact held.clean q mem kept
  case disk =>
    intro number above below absent
    have apart : number ≠ high := fun eq => absent _ (mem_cons_self ..) eq.symm
    rw [others number apart]
    exact held.disk number above (by omega) fun q mem => absent q (mem_cons_of_mem _ mem)
  case distinct =>
    apply nodup_cons.mpr
    refine ⟨fun mem => ?_, held.distinct⟩
    obtain ⟨q, inside, same⟩ := mem_map.mp mem
    have below := (held.memory q inside).2.1
    have this : (table'.bucket high).thisBucket = high := rfl
    dsimp only at same
    omega
  case count => exact room
  case width =>
    intro number above below
    by_cases same : number = high
    · rw [same]
      exact width
    · rw [used number same]
      exact held.width number above (by omega)

/-- A shadow file after a new block has been put in its hash table. -/
structure Grown (table : Table) (before : CFileHead) (no : Nat) (after : CFile) : Prop where
  form : ∃ table' chain', HashForm table' chain' after ∧ ∀ n v,
    table'.Stored after.head n v ↔ table.Stored before n v ∨ n = no ∧ v = before.nextBlock
  dirty : ∃ p ∈ after.buckets, p.dirty = true
  blockSize : after.head.blockSize = before.blockSize

/-- `cf_new_hash` before a bucket has been found: the number of the block has been taken. -/
structure Taking (table : Table) (chain : Nat → List Nat) (head : CFileHead) (array : Nat → Nat)
    (no : Nat) (cf : CFile) : Prop where
  state : head.state = .hash
  taken : cf.head = { head with nextBlock := head.nextBlock + 1 }
  sameArray : cf.array = array
  sound : Sound table chain head array
  coherent : Coherent table head.firstBucket head.nextBucket cf
  size : cf.file.size ≤ head.nextBucket * hashWords
  new : ∀ v, ¬ table.Stored head no v

variable {cf : CFile} {no : Nat}

theorem Taking.fill (taking : Taking table chain head array no cf) {p : HashBucket}
    (mem : p ∈ cf.buckets) (hno : p.hno = cfHash head no)
    (free : (table.used p.ph.thisBucket).length < hashBucket) :
    ∃ ph, p.ph.fill no head.nextBlock = some ph ∧
      Grown table head no (cf.setBucket { p with ph, dirty := true }) := by
  obtain ⟨above, below, ph, owner⟩ := taking.coherent.memory p mem
  have filled : p.ph.fill no head.nextBlock =
      some ((table.fill p.ph.thisBucket no head.nextBlock).bucket p.ph.thisBucket) := by
    have filled := table.fill_bucket (taking.sound.mapped above below) free no head.nextBlock
    rw [← ph] at filled
    exact filled
  refine ⟨_, filled, ?_, ?_, ?_⟩
  · have head' : (cf.setBucket { p with
        ph := (table.fill p.ph.thisBucket no head.nextBlock).bucket p.ph.thisBucket
        dirty := true }).head = { head with nextBlock := head.nextBlock + 1 } := taking.taken
    refine ⟨table.fill p.ph.thisBucket no head.nextBlock, chain, ⟨?_, ?_, ?_, ?_⟩, ?_⟩
    · rw [head']
      exact taking.state
    · rw [head']
      apply taking.coherent.setBucket mem rfl (fun b apart => fill_used_of_ne apart _ _)
        (fun _ _ => rfl) rfl
      rw [fill_used_self, length_append, length_singleton]
      exact free
    · rw [head', CFile.setBucket]
      dsimp only
      rw [taking.sameArray]
      exact taking.sound.fill above below (owner.symm.trans hno) free taking.new
    · rw [head']
      exact taking.size
    · rw [head']
      exact Sound.stored_fill above below
  · refine ⟨_, mem_map.mpr ⟨p, mem, if_pos ?_⟩, rfl⟩
    rfl
  · have blockSize : cf.head.blockSize = head.blockSize := by rw [taking.taken]
    exact blockSize

theorem Taking.append (taking : Taking table chain head array no cf) {hbprev : Option HashBucket}
    (inside : ∀ p ∈ hbprev, p ∈ cf.buckets)
    (last : hbprev.map (fun p => p.ph.thisBucket) = (chain (cfHash head no)).getLast?)
    (full : ∀ p ∈ cf.buckets, p.hno = cfHash head no →
      (table.used p.ph.thisBucket).length = hashBucket) :
    Grown table head no (appendBucket cf (cfHash head no) no head.nextBlock hbprev) := by
  have order := taking.sound.order
  have low := cfHash_lt taking.sound.hashSize no
  have lastFull : ∀ b ∈ (chain (cfHash head no)).getLast?, (table.used b).length = hashBucket := by
    intro b isLast
    rw [← last] at isLast
    obtain ⟨p, some, rfl⟩ := Option.map_eq_some_iff.mp isLast
    have mem := inside p some
    obtain ⟨_, _, _, hno⟩ := taking.coherent.memory p mem
    have onChain : p.ph.thisBucket ∈ chain (cfHash head no) := by
      apply mem_of_getLast?
      rw [← last, some]
      rfl
    exact full p mem (hno.trans ((taking.sound.mem _ low _).mp onChain).2.2)
  have sound := taking.sound.append taking.new lastFull
  have stored := taking.sound.stored_append no (cfHash head no)
    (chain (cfHash head no)).getLast?
  rw [← last] at sound stored
  -- the link is in the table before the new bucket is
  obtain ⟨middle, linkedCf, usedMiddle, nextMiddle, ownerMiddle, coherent, eq, size, arrayEq⟩ :
      ∃ (middle : Table) (linkedCf : CFile),
        (∀ b, middle.used b = table.used b) ∧
        (∀ b, b ≠ head.nextBucket →
          (table.append (hbprev.map fun p => p.ph.thisBucket) head.nextBucket (cfHash head no) no
            head.nextBlock).next b = middle.next b) ∧
        middle.owner = table.owner ∧
        Coherent middle head.firstBucket head.nextBucket linkedCf ∧
        appendBucket cf (cfHash head no) no head.nextBlock hbprev =
          (makeRoom { linkedCf with
            head := { cf.head with nextBucket := head.nextBucket + 1 } }).push
            { ph :=
                { slots := (no, head.nextBlock) :: replicate (hashBucket - 1) (0, 0)
                  thisBucket := head.nextBucket
                  nextBucket := 0 }
              hno := cfHash head no
              dirty := true } ∧
        linkedCf.file.size ≤ head.nextBucket * hashWords ∧
        linkedCf.array = linked array (hbprev.map fun p => p.ph.thisBucket) (cfHash head no)
          head.nextBucket := by
    have nextBucket : cf.head.nextBucket = head.nextBucket := by rw [taking.taken]
    cases hbprev with
    | none =>
      refine ⟨table, { cf with array := Function.update cf.array (cfHash head no) head.nextBucket },
        fun _ => rfl, fun b apart => update_of_ne apart _ _, rfl,
        taking.coherent.congr rfl rfl, ?_, taking.size, ?_⟩
      · unfold appendBucket
        dsimp only
        rw [nextBucket]
      · dsimp only
        rw [taking.sameArray]
        rfl
    | some p =>
      have mem := inside p rfl
      obtain ⟨above, below, ph, _⟩ := taking.coherent.memory p mem
      have linkedPh : { p.ph with nextBucket := head.nextBucket } =
          (table.link p.ph.thisBucket head.nextBucket).bucket p.ph.thisBucket := by
        have next : (table.link p.ph.thisBucket head.nextBucket).next p.ph.thisBucket =
            head.nextBucket := update_self _ _ _
        rw [bucket, next]
        conv_lhs => rw [ph]
        rfl
      refine ⟨table.link p.ph.thisBucket head.nextBucket,
        cf.setBucket { p with
          ph := { p.ph with nextBucket := head.nextBucket }
          dirty := true }, fun _ => rfl, fun b apart => update_of_ne apart _ _, rfl, ?_,
        ?_, taking.size, taking.sameArray⟩
      · exact taking.coherent.setBucket mem linkedPh (fun _ _ => rfl)
          (fun b apart => update_of_ne apart _ _) rfl
          (taking.coherent.width _ above below)
      · unfold appendBucket
        dsimp only
        rw [nextBucket]
  have bumped : Coherent middle head.firstBucket head.nextBucket
      { linkedCf with head := { cf.head with nextBucket := head.nextBucket + 1 } } :=
    coherent.congr rfl rfl
  obtain ⟨roomy, same, room, _⟩ := bumped.makeRoom
  generalize roomed : makeRoom { linkedCf with
    head := { cf.head with nextBucket := head.nextBucket + 1 } } = roomCf at *
  generalize lastEq : hbprev.map (fun p => p.ph.thisBucket) = lastNo at *
  have nextNew : (table.append lastNo head.nextBucket (cfHash head no) no head.nextBlock).next
      head.nextBucket = 0 := by
    cases lastNo with
    | none => exact update_self _ _ _
    | some c => exact update_self _ _ _
  have usedNew : (table.append lastNo head.nextBucket (cfHash head no) no head.nextBlock).used
      head.nextBucket = [(no, head.nextBlock)] := update_self _ _ _
  have ownerNew : (table.append lastNo head.nextBucket (cfHash head no) no head.nextBlock).owner
      head.nextBucket = cfHash head no := update_self _ _ _
  have width : ((table.append lastNo head.nextBucket (cfHash head no) no head.nextBlock).used
      head.nextBucket).length ≤ hashBucket := by
    rw [usedNew]
    exact (by decide : 1 ≤ hashBucket)
  have pushed := roomy.pushNew order
    (fun b apart => (update_of_ne apart _ _).trans (usedMiddle b).symm) nextMiddle
    (fun b apart => by rw [ownerMiddle]; exact update_of_ne apart _ _)
    width room
  have bucket : (table.append lastNo head.nextBucket (cfHash head no) no head.nextBlock).bucket
      head.nextBucket =
        { slots := (no, head.nextBlock) :: replicate (hashBucket - 1) (0, 0)
          thisBucket := head.nextBucket
          nextBucket := 0 } := by
    rw [bucket, usedNew, nextNew]
    rfl
  rw [bucket, ownerNew] at pushed
  rw [eq]
  have headEq : roomCf.head = { head with
      nextBlock := head.nextBlock + 1, nextBucket := head.nextBucket + 1 } := by
    rw [same.head]
    dsimp only
    rw [taking.taken]
  have headPush : ∀ p : HashBucket, (roomCf.push p).head = { head with
      nextBlock := head.nextBlock + 1, nextBucket := head.nextBucket + 1 } := fun _ => headEq
  refine ⟨⟨table.append lastNo head.nextBucket (cfHash head no) no head.nextBlock,
    Function.update chain (cfHash head no) (chain (cfHash head no) ++ [head.nextBucket]),
    ⟨?_, ?_, ?_, ?_⟩, ?_⟩, ?_, ?_⟩
  · rw [headPush]
    exact taking.state
  · rw [headPush]
    exact pushed
  · rw [headPush]
    have array' : roomCf.array = linked array lastNo (cfHash head no) head.nextBucket :=
      same.array.trans arrayEq
    rw [CFile.push]
    dsimp only
    rw [array']
    exact sound
  · rw [headPush]
    have most := same.size
    dsimp only at most size ⊢
    rw [CFile.push, Nat.succ_mul]
    dsimp only
    omega
  · rw [headPush]
    exact stored
  · exact ⟨_, mem_cons_self .., rfl⟩
  · rw [headPush]

theorem Grown.counted {after : CFile} (grown : Grown table head no after) (hits miss : Nat) :
    Grown table head no { after with noHits := hits, noMiss := miss } := by
  obtain ⟨⟨table', chain', form, stored⟩, dirty, blockSize⟩ := grown
  have same := SameIndex.counted after.head.firstBucket after.head.nextBucket after hits miss
  exact ⟨⟨table', chain', form.same (form.coherent.congr rfl rfl) same, stored⟩, dirty, blockSize⟩

/-- Buckets are brought into memory while the number of the block is taken. -/
theorem Taking.same (taking : Taking table chain head array no cf) {after : CFile}
    (coherent : Coherent table head.firstBucket head.nextBucket after)
    (same : SameIndex head.firstBucket head.nextBucket cf after) :
    Taking table chain head array no after where
  state := taking.state
  taken := same.head.trans taking.taken
  sameArray := same.array.trans taking.sameArray
  sound := taking.sound
  coherent := coherent
  size := by
    have := same.size
    have := taking.size
    omega
  new := taking.new

/-- The walk of `cf_new_hash` along the rest of a chain, when all its buckets in memory are full. -/
theorem Taking.newChain (taking : Taking table chain head array no cf) {fuel start : Nat}
    {pre rest : List Nat} {hbprev : Option HashBucket}
    (split : chain (cfHash head no) = pre ++ rest) (follows : Follows table.next start rest)
    (inside : ∀ p ∈ hbprev, p ∈ cf.buckets)
    (last : hbprev.map (fun p => p.ph.thisBucket) = pre.getLast?)
    (full : ∀ p ∈ cf.buckets, p.hno = cfHash head no →
      (table.used p.ph.thisBucket).length = hashBucket)
    (enough : rest.length ≤ fuel) :
    ∃ after, newChain (cfHash head no) no head.nextBlock fuel cf hbprev start = some after ∧
      Grown table head no after := by
  have low := cfHash_lt taking.sound.hashSize no
  induction follows generalizing cf fuel pre hbprev with
  | nil =>
    rw [append_nil] at split
    rw [← split] at last
    refine ⟨_, ?_, taking.append inside last full⟩
    cases fuel <;> exact if_pos rfl
  | @cons number rest named _ induction =>
    cases fuel with
    | zero => exact absurd enough (Nat.not_succ_le_zero _)
    | succ fuel =>
      have enough' : rest.length ≤ fuel := Nat.le_of_succ_le_succ enough
      have split' : chain (cfHash head no) = (pre ++ [number]) ++ rest := by
        rw [split, append_assoc]
        rfl
      have onChain : number ∈ chain (cfHash head no) := by
        rw [split]
        exact mem_append_right _ (mem_cons_self ..)
      have last' : some number = (pre ++ [number]).getLast? := getLast?_concat.symm
      obtain ⟨above, below, owner⟩ := (taking.sound.mem _ low number).mp onChain
      have seen := taking.coherent.find_chain number
      rw [owner] at seen
      rw [Bfile.newChain, if_neg named]
      rcases seen with ⟨p, mem, ph, _, seen⟩ | ⟨absent, seen⟩
      · have next : p.ph.nextBucket = table.next number := by rw [ph]; rfl
        have this : p.ph.thisBucket = number := by rw [ph]; rfl
        rw [seen]
        dsimp only
        rw [next]
        apply induction taking split' _ _ full enough'
        · intro q eq
          cases eq
          exact mem
        · rw [← last', ← this]
          rfl
      · have miss : Coherent table head.firstBucket head.nextBucket
            { cf with noMiss := cf.noMiss + 1 } := taking.coherent.congr rfl rfl
        obtain ⟨read, run, coherent, same, front, back⟩ := miss.getBucket above below absent
        have missed : Taking table chain head array no read :=
          taking.same coherent ((SameIndex.counted _ _ cf _ _).trans same)
        rw [owner] at run front
        obtain ⟨others, buckets⟩ := head?_eq_some_iff.mp front
        rw [seen]
        dsimp only
        rw [run]
        dsimp only
        by_cases free : (table.used number).length < hashBucket
        · have mem : (⟨table.bucket number, cfHash head no, false⟩ : HashBucket) ∈
              read.buckets := by
            rw [buckets]
            exact mem_cons_self ..
          obtain ⟨ph, filled, grown⟩ := missed.fill mem rfl free
          dsimp only at filled
          rw [filled]
          exact ⟨_, rfl, grown⟩
        · have all : (table.used number).length = hashBucket := by
            have := taking.coherent.width number above below
            omega
          have none : (table.bucket number).fill no head.nextBlock = none :=
            fill_bucketOf_full (taking.sound.mapped above below) all _ _
          rw [none]
          apply induction missed split' _ _ _ enough'
          · intro q eq
            cases eq
            rw [buckets]
            exact mem_cons_self ..
          · exact last'
          · intro q mem hno
            rw [buckets] at mem back
            rcases mem_cons.mp mem with rfl | mem
            · exact all
            · exact full q (back q mem) hno

/-- A block that is not mapped yet gets the next shadow block. -/
theorem HashForm.cfNewHash (form : HashForm table chain cf)
    (new : ∀ v, ¬ table.Stored cf.head no v) :
    ∃ after, cfNewHash cf no = some (after, cf.head.nextBlock) ∧
      Grown table cf.head no after := by
  have low := cfHash_lt form.sound.hashSize no
  have taking : Taking table chain cf.head cf.array no
      { cf with head := { cf.head with nextBlock := cf.head.nextBlock + 1 } } :=
    ⟨form.state, rfl, rfl, form.sound, form.coherent.congr rfl rfl, form.size, new⟩
  unfold Bfile.cfNewHash
  dsimp only
  cases first : (cf.chain (cfHash cf.head no)).findSome? fun hb =>
      fillLast hb no cf.head.nextBlock with
  | some hb =>
    obtain ⟨p, mem, filled⟩ := exists_of_findSome?_eq_some first
    obtain ⟨mem, onChain⟩ := mem_filter.mp mem
    obtain ⟨above, below, eq, _⟩ := form.coherent.memory p mem
    unfold fillLast at filled
    split at filled
    case isFalse => cases filled
    case isTrue free =>
      rw [eq, bucket, last_bucketOf (form.sound.mapped above below)
        (form.coherent.width _ above below)] at free
      obtain ⟨ph, some, grown⟩ := taking.fill mem (of_decide_eq_true onChain) free
      rw [some] at filled
      cases filled
      exact ⟨_, rfl, grown.counted (cf.noHits + 1) cf.noMiss⟩
  | none =>
    have full : ∀ p ∈ cf.buckets, p.hno = cfHash cf.head no →
        (table.used p.ph.thisBucket).length = hashBucket := by
      intro p mem hno
      obtain ⟨above, below, eq, _⟩ := form.coherent.memory p mem
      have width := form.coherent.width _ above below
      by_contra notFull
      have free : (table.used p.ph.thisBucket).length < hashBucket := by omega
      obtain ⟨ph, some, _⟩ := taking.fill mem hno free
      have nothing := findSome?_eq_none_iff.mp first p
        (mem_filter.mpr ⟨mem, decide_eq_true hno⟩)
      have lastFree : (p.ph.slots.getD (hashBucket - 1) (0, 0)).2 = 0 := by
        rw [eq, bucket]
        exact (last_bucketOf (form.sound.mapped above below) width).mpr free
      rw [fillLast, if_pos lastFree, some] at nothing
      cases nothing
    have enough := form.sound.length_chain low
    have noPrev : ∀ p ∈ (none : Option HashBucket), p ∈ cf.buckets :=
      fun _ mem => absurd mem (Option.not_mem_none _)
    obtain ⟨after, run, grown⟩ := taking.newChain (nil_append _).symm
      (form.sound.follows _ low) noPrev rfl full enough
    exact ⟨after, by rw [run]; rfl, grown⟩

end

theorem HashForm.maps_iff {table : Table} {chain : Nat → List Nat} {cf : CFile}
    (form : HashForm table chain cf) (no vno : Nat) :
    Maps cf no vno ↔ table.Stored cf.head no vno := by
  have bucket : ∀ b, cf.head.firstBucket ≤ b → b < cf.head.nextBucket →
      cf.bucket b = some (table.bucket b) := by
    intro b above below
    unfold CFile.bucket
    cases found : cf.buckets.find? fun p => p.ph.thisBucket = b with
    | some p =>
      have this : p.ph.thisBucket = b := of_decide_eq_true (find?_some found :)
      obtain ⟨_, _, ph, _⟩ := form.coherent.memory p (mem_of_find?_eq_some found)
      dsimp only
      rw [ph, this]
    | none =>
      apply form.coherent.disk b above below
      intro p mem this
      exact find?_eq_none.mp found p mem (decide_eq_true this)
  have used : ∀ b, cf.head.firstBucket ≤ b → b < cf.head.nextBucket →
      (table.bucket b).used = table.used b :=
    fun b above below => used_bucketOf (form.sound.mapped above below)
  unfold Maps
  rw [form.state]
  dsimp only
  constructor
  · rintro ⟨b, ph, above, below, eq, mem⟩
    rw [bucket b above below] at eq
    cases eq
    rw [used b above below] at mem
    exact ⟨b, above, below, mem⟩
  · rintro ⟨b, above, below, mem⟩
    refine ⟨b, table.bucket b, above, below, bucket b above below, ?_⟩
    rw [used b above below]
    exact mem

end Zebra.Bfile
