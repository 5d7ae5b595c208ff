import Zebra.Lib.Chain
import Zebra.Records.Store

/-!
# The blocks of a class

Every block of a class is in one chain, in the list of free blocks, or has just been taken for a
chain that is being written or is on its way to the list of free blocks.
-/

namespace Zebra.Records

open List BlockClass

def BlockClass.nextOf (cls : BlockClass) (block : Nat) : Nat :=
  ((cls.file block).map Block.next).getD 0

/-- The blocks of a class: those of the chains, the free ones, and others that have been taken. -/
structure Blocks (cls : BlockClass) (chains : List (List Nat)) (free taken : List Nat) : Prop where
  capacity : 3 ≤ cls.capacity
  last : 0 < cls.blockLast
  freeList : Follows cls.nextOf cls.blockFree free
  chained : ∀ c ∈ chains, ∃ first, c.head? = some first ∧ Follows cls.nextOf first c
  once : (free ++ (taken ++ chains.flatten)).Perm (range' 1 (cls.blockLast - 1))
  there : ∀ b, b ∈ free ∨ b ∈ chains.flatten → (cls.file b).isSome
  used : cls.blockUsed = (taken ++ chains.flatten).length
  fits : ∀ b block, cls.file b = some block → block.data.length ≤ cls.capacity

section

variable {cls : BlockClass} {chains : List (List Nat)} {free taken : List Nat}

theorem Blocks.nodup (blocks : Blocks cls chains free taken) :
    (free ++ (taken ++ chains.flatten)).Nodup :=
  blocks.once.nodup_iff.mpr nodup_range'

theorem Blocks.range (blocks : Blocks cls chains free taken) {b : Nat}
    (mem : b ∈ free ++ (taken ++ chains.flatten)) : 0 < b ∧ b < cls.blockLast := by
  have inside := mem_range'_1.mp (blocks.once.mem_iff.mp mem)
  omega

theorem Blocks.apart (blocks : Blocks cls chains free taken) {b : Nat} (mem : b ∈ taken) :
    b ∉ free ∧ b ∉ chains.flatten := by
  have nodup := blocks.nodup
  rw [nodup_append] at nodup
  obtain ⟨_, both, apart⟩ := nodup
  rw [nodup_append] at both
  refine ⟨fun inFree => ?_, fun inChains => ?_⟩
  · exact apart b inFree b (mem_append_left _ mem) rfl
  · exact both.2.2 b mem b inChains rfl

theorem file_setBlock_self (cls : BlockClass) (block : Nat) (b : Block) :
    (cls.setBlock block b).file block = some b :=
  Function.update_self _ _ _

theorem file_setBlock_of_ne (cls : BlockClass) {block other : Nat} (b : Block)
    (apart : other ≠ block) : (cls.setBlock block b).file other = cls.file other :=
  Function.update_of_ne apart _ _

theorem nextOf_setBlock_self (cls : BlockClass) (block : Nat) (b : Block) :
    (cls.setBlock block b).nextOf block = b.next := by
  rw [nextOf, file_setBlock_self]
  rfl

theorem nextOf_setBlock_of_ne (cls : BlockClass) {block other : Nat} (b : Block)
    (apart : other ≠ block) : (cls.setBlock block b).nextOf other = cls.nextOf other := by
  rw [nextOf, file_setBlock_of_ne cls b apart]
  rfl

theorem Blocks.setBlock (blocks : Blocks cls chains free taken) {block : Nat}
    (mem : block ∈ taken) (b : Block) (fits : b.data.length ≤ cls.capacity) :
    Blocks (cls.setBlock block b) chains free taken := by
  obtain ⟨notFree, notChained⟩ := blocks.apart mem
  have others : ∀ c, c ≠ block → (cls.setBlock block b).nextOf c = cls.nextOf c :=
    fun c apart => nextOf_setBlock_of_ne cls b apart
  constructor
  case capacity => exact blocks.capacity
  case last => exact blocks.last
  case freeList =>
    apply blocks.freeList.congr
    intro c inside
    apply others
    rintro rfl
    exact notFree inside
  case chained =>
    intro c inside
    obtain ⟨first, head, follows⟩ := blocks.chained c inside
    refine ⟨first, head, follows.congr fun d there => others d ?_⟩
    rintro rfl
    exact notChained (mem_flatten.mpr ⟨c, inside, there⟩)
  case once => exact blocks.once
  case there =>
    intro c inside
    by_cases same : c = block
    · rw [same, file_setBlock_self]
      rfl
    · rw [file_setBlock_of_ne cls b same]
      exact blocks.there c inside
  case used => exact blocks.used
  case fits =>
    intro c old found
    by_cases same : c = block
    · rw [same, file_setBlock_self] at found
      cases found
      exact fits
    · rw [file_setBlock_of_ne cls b same] at found
      exact blocks.fits c old found

theorem Blocks.perm (blocks : Blocks cls chains free taken) {taken' : List Nat}
    (perm : taken'.Perm taken) : Blocks cls chains free taken' where
  capacity := blocks.capacity
  last := blocks.last
  freeList := blocks.freeList
  chained := blocks.chained
  once := ((perm.append_right _).append_left free).trans blocks.once
  there := blocks.there
  used := by rw [blocks.used, (perm.append_right chains.flatten).length_eq]
  fits := blocks.fits

theorem Blocks.take (blocks : Blocks cls chains free taken) {chain : List Nat}
    (mem : chain ∈ chains) : Blocks cls (chains.erase chain) free (chain ++ taken) := by
  have perm : (chain :: chains.erase chain).Perm chains := (perm_cons_erase mem).symm
  have flat : (chain ++ (chains.erase chain).flatten).Perm chains.flatten := perm.flatten
  have rest : (chain ++ taken ++ (chains.erase chain).flatten).Perm (taken ++ chains.flatten) := by
    apply Perm.trans _ (flat.append_left taken)
    rw [← append_assoc]
    have swap : (chain ++ taken).Perm (taken ++ chain) := perm_append_comm
    exact swap.append_right _
  constructor
  case capacity => exact blocks.capacity
  case last => exact blocks.last
  case freeList => exact blocks.freeList
  case chained => exact fun c inside => blocks.chained c (mem_of_mem_erase inside)
  case once => exact (rest.append_left free).trans blocks.once
  case there =>
    intro b inside
    apply blocks.there
    refine inside.imp id fun there => ?_
    exact flat.subset (mem_append_right _ there)
  case used =>
    rw [blocks.used, rest.length_eq]
  case fits => exact blocks.fits

/-- Written blocks that have been taken become a chain. -/
theorem Blocks.give (blocks : Blocks cls chains free taken) {first : Nat}
    (head : taken.head? = some first) (follows : Follows cls.nextOf first taken)
    (there : ∀ b ∈ taken, (cls.file b).isSome) : Blocks cls (taken :: chains) free [] := by
  constructor
  case capacity => exact blocks.capacity
  case last => exact blocks.last
  case freeList => exact blocks.freeList
  case chained =>
    intro c inside
    rcases mem_cons.mp inside with rfl | inside
    · exact ⟨first, head, follows⟩
    · exact blocks.chained c inside
  case once => exact blocks.once
  case there =>
    rintro b (inside | inside)
    · exact blocks.there b (.inl inside)
    · rcases mem_append.mp inside with inside | inside
      · exact there b inside
      · exact blocks.there b (.inr inside)
  case used => exact blocks.used
  case fits => exact blocks.fits

/-- The loop that puts the blocks of a chain in front of the free ones. -/
theorem Blocks.releaseLoop {fuel first : Nat} {chain : List Nat}
    (blocks : Blocks cls chains free (chain ++ taken)) (follows : Follows cls.nextOf first chain)
    (there : ∀ b ∈ chain, (cls.file b).isSome) (enough : chain.length ≤ fuel) :
    ∃ after free', releaseLoop fuel cls first = some after ∧ Blocks after chains free' taken ∧
      (∀ b, b ∉ chain → after.file b = cls.file b) ∧ after.capacity = cls.capacity ∧
      after.blockMove = cls.blockMove := by
  induction chain generalizing cls first fuel free with
  | nil =>
    cases follows
    refine ⟨cls, free, ?_, blocks, fun _ _ => rfl, rfl, rfl⟩
    cases fuel <;> exact if_pos rfl
  | cons block rest induction =>
    obtain ⟨rfl, named, follows⟩ := follows.start_eq
    cases fuel with
    | zero => exact absurd enough (Nat.not_succ_le_zero _)
    | succ fuel =>
      obtain ⟨b, found⟩ := Option.isSome_iff_exists.mp (there first (mem_cons_self ..))
      have mem : first ∈ first :: rest ++ taken := mem_cons_self ..
      obtain ⟨notFree, notChained⟩ := blocks.apart mem
      have written := blocks.setBlock mem { b with next := cls.blockFree }
        (blocks.fits first b found)
      have nodup := blocks.nodup
      have notRest : first ∉ rest := by
        intro inside
        rw [nodup_append] at nodup
        have both := nodup.2.1
        rw [cons_append, cons_append, nodup_cons] at both
        exact both.1 (mem_append_left _ (mem_append_left _ inside))
      have next : cls.nextOf first = b.next := by
        rw [nextOf, found]
        rfl
      rw [next] at follows
      have freed : Blocks
          { cls.setBlock first { b with next := cls.blockFree } with
            blockFree := first
            blockUsed := cls.blockUsed - 1 } chains (first :: free) (rest ++ taken) := by
        constructor
        case capacity => exact blocks.capacity
        case last => exact blocks.last
        case freeList =>
          apply Follows.cons named
          have list : Follows (cls.setBlock first { b with next := cls.blockFree }).nextOf
              ((cls.setBlock first { b with next := cls.blockFree }).nextOf first) free := by
            rw [nextOf_setBlock_self]
            exact written.freeList
          exact list
        case chained => exact written.chained
        case once =>
          have perm : (first :: free ++ (rest ++ taken ++ chains.flatten)).Perm
              (free ++ (first :: rest ++ taken ++ chains.flatten)) :=
            perm_middle.symm
          exact perm.trans blocks.once
        case there =>
          rintro c (inside | inside)
          · rcases mem_cons.mp inside with rfl | inside
            · have self : ((cls.setBlock c { b with next := cls.blockFree }).file c).isSome := by
                rw [file_setBlock_self]
                rfl
              exact self
            · exact written.there c (.inl inside)
          · exact written.there c (.inr inside)
        case used =>
          have used := blocks.used
          dsimp only
          rw [used]
          simp only [cons_append, length_cons]
          omega
        case fits => exact written.fits
      have follows' : Follows (nextOf
          { cls.setBlock first { b with next := cls.blockFree } with
            blockFree := first
            blockUsed := cls.blockUsed - 1 }) b.next rest := by
        apply follows.congr
        intro c inside
        apply nextOf_setBlock_of_ne
        rintro rfl
        exact notRest inside
      have there' : ∀ c ∈ rest, (file
          { cls.setBlock first { b with next := cls.blockFree } with
            blockFree := first
            blockUsed := cls.blockUsed - 1 } c).isSome := by
        intro c inside
        have apart : c ≠ first := by
          rintro rfl
          exact notRest inside
        have same := file_setBlock_of_ne cls { b with next := cls.blockFree } apart
        have old := there c (.tail _ inside)
        rw [← same] at old
        exact old
      obtain ⟨after, free', run, still, frame, capacity, move⟩ :=
        induction freed follows' there' (Nat.le_of_succ_le_succ enough)
      refine ⟨after, free', ?_, still, fun c outside => ?_, capacity, move⟩
      · rw [Records.releaseLoop, if_neg named, found]
        exact run
      · have apart : c ≠ first := by
          rintro rfl
          exact outside (mem_cons_self ..)
        rw [frame c fun inside => outside (mem_cons_of_mem _ inside)]
        exact file_setBlock_of_ne cls _ apart

theorem Blocks.allocBlock (blocks : Blocks cls chains free taken) :
    ∃ after block free', allocBlock cls = some (after, block) ∧
      Blocks after chains free' (block :: taken) ∧ after.file = cls.file ∧
      after.capacity = cls.capacity ∧ after.blockMove = cls.blockMove ∧ block ≠ 0 ∧
      cls.blockLast ≤ after.blockLast ∧
      ∀ b, b ∉ free → b < cls.blockLast → b ≠ block ∧ b ∉ free' := by
  unfold Records.allocBlock
  cases free with
  | nil =>
    have none : cls.blockFree = 0 := blocks.freeList.start_nil
    have last := blocks.last
    refine ⟨_, cls.blockLast, [], if_neg fun some => some none, ?_, rfl, rfl, rfl, by omega,
      Nat.le_succ _, fun b _ less => ⟨Nat.ne_of_lt less, not_mem_nil⟩⟩
    constructor
    case capacity => exact blocks.capacity
    case last => exact Nat.succ_pos _
    case freeList => exact blocks.freeList
    case chained => exact blocks.chained
    case once =>
      have once := blocks.once
      rw [nil_append] at once ⊢
      have range : range' 1 (cls.blockLast + 1 - 1) =
          range' 1 (cls.blockLast - 1) ++ [cls.blockLast] := by
        have split : cls.blockLast + 1 - 1 = cls.blockLast - 1 + 1 := by omega
        rw [split, range'_concat, Nat.one_mul]
        congr 2
        omega
      dsimp only
      rw [range]
      apply Perm.trans _ (once.append_right [cls.blockLast])
      exact (perm_append_singleton _ _).symm
    case there => exact blocks.there
    case used =>
      have used := blocks.used
      dsimp only
      rw [used]
      simp only [cons_append, length_cons]
      omega
    case fits => exact blocks.fits
  | cons block free =>
    obtain ⟨start, named, follows⟩ := blocks.freeList.start_eq
    obtain ⟨b, found⟩ := Option.isSome_iff_exists.mp
      (blocks.there block (.inl (mem_cons_self ..)))
    have next : cls.nextOf block = b.next := by
      rw [nextOf, found]
      rfl
    rw [next] at follows
    have nodup := blocks.nodup
    rw [cons_append, nodup_cons] at nodup
    refine ⟨{ cls with blockFree := b.next, blockUsed := cls.blockUsed + 1 }, block, free, ?_, ?_,
      rfl, rfl, rfl, named, Nat.le_refl _, fun c outside _ => ⟨?_, ?_⟩⟩
    · rw [start, if_pos named, found]
      rfl
    · constructor
      case capacity => exact blocks.capacity
      case last => exact blocks.last
      case freeList => exact follows
      case chained => exact blocks.chained
      case once =>
        have perm : (free ++ (block :: taken ++ chains.flatten)).Perm
            (block :: free ++ (taken ++ chains.flatten)) := perm_middle
        exact perm.trans blocks.once
      case there =>
        rintro c (inside | inside)
        · exact blocks.there c (.inl (.tail _ inside))
        · exact blocks.there c (.inr inside)
      case used =>
        have used := blocks.used
        dsimp only
        rw [used]
        simp only [cons_append, length_cons]
        omega
      case fits => exact blocks.fits
    · rintro rfl
      exact outside (mem_cons_self ..)
    · exact fun inside => outside (.tail _ inside)

def BlockClass.dataOf (cls : BlockClass) (chain : List Nat) : List Byte :=
  chain.flatMap fun b => ((cls.file b).map Block.data).getD []

theorem Blocks.writeLoop {fuel blockPrev : Nat} {rest : List Byte}
    (blocks : Blocks cls chains free (blockPrev :: taken)) (enough : rest.length ≤ fuel)
    (nonempty : 0 < rest.length) :
    ∃ after more free' junk, writeLoop fuel cls blockPrev rest = some after ∧
      Blocks after chains free' (blockPrev :: more ++ taken) ∧
      Follows after.nextOf blockPrev (blockPrev :: more) ∧
      (∀ b ∈ blockPrev :: more, (after.file b).isSome) ∧
      after.dataOf (blockPrev :: more) = rest ++ junk ∧
      (∀ b, b ≠ blockPrev → b ∉ free → b < cls.blockLast → after.file b = cls.file b) ∧
      (∃ b, after.file blockPrev = some b ∧ rest.take cls.capacity <+: b.data) ∧
      after.capacity = cls.capacity ∧ after.blockMove = cls.blockMove := by
  have capacity := blocks.capacity
  induction fuel generalizing cls blockPrev rest free taken with
  | zero => omega
  | succ fuel induction =>
    have here : blockPrev ∈ blockPrev :: taken := mem_cons_self ..
    obtain ⟨notFree, _⟩ := blocks.apart here
    rw [Records.writeLoop]
    by_cases short : rest.length ≤ cls.capacity
    · rw [if_pos short]
      generalize oldEq : ((cls.file blockPrev).map Block.data).getD [] = old
      have oldFits : old.length ≤ cls.capacity := by
        rw [← oldEq]
        cases found : cls.file blockPrev with
        | none => exact Nat.zero_le _
        | some b => exact blocks.fits blockPrev b found
      have fits : (rest ++ old.drop rest.length).length ≤ cls.capacity := by
        rw [length_append, length_drop]
        omega
      have written : writeBlock cls blockPrev 0 rest =
          cls.setBlock blockPrev { next := 0, data := rest ++ old.drop rest.length } := by
        rw [writeBlock, oldEq]
      rw [written]
      refine ⟨_, [], free, old.drop rest.length, rfl, blocks.setBlock here _ fits, ?_, ?_, ?_, ?_,
        ?_, rfl, rfl⟩
      · apply Follows.cons (Nat.ne_of_gt (blocks.range
          (mem_append_right _ (mem_append_left _ here))).1)
        rw [nextOf_setBlock_self]
        exact Follows.nil
      · intro b mem
        rw [mem_singleton.mp mem, file_setBlock_self]
        rfl
      · rw [dataOf, flatMap_cons, file_setBlock_self]
        exact append_nil _
      · exact fun b apart _ _ => file_setBlock_of_ne cls _ apart
      · refine ⟨_, file_setBlock_self _ _ _, ?_⟩
        exact (List.take_prefix _ _).trans (prefix_append _ _)
    · rw [if_neg short]
      obtain ⟨alloced, block, free', alloc, blocks', file, capacity', move, named, grows, apart⟩ :=
        blocks.allocBlock
      have less := (blocks.range (mem_append_right _ (mem_append_left _ here))).2
      obtain ⟨other, notFree'⟩ := apart blockPrev notFree less
      have here' : blockPrev ∈ block :: blockPrev :: taken := .tail _ here
      have length : (rest.take cls.capacity).length = cls.capacity := by
        rw [length_take]
        omega
      have full : writeBlock alloced blockPrev block (rest.take cls.capacity) =
          alloced.setBlock blockPrev { next := block, data := rest.take cls.capacity } := by
        have nothing : (((alloced.file blockPrev).map Block.data).getD []).drop
            (rest.take cls.capacity).length = [] := by
          apply drop_eq_nil_of_le
          rw [length, file]
          cases found : cls.file blockPrev with
          | none => exact Nat.zero_le _
          | some b => exact blocks.fits blockPrev b found
        rw [writeBlock, nothing, append_nil]
      have written := blocks'.setBlock here' { next := block, data := rest.take cls.capacity }
        (by rw [length, capacity'])
      rw [alloc]
      dsimp only
      rw [capacity', full]
      have enough' : (rest.drop cls.capacity).length ≤ fuel := by
        rw [length_drop]
        omega
      have nonempty' : 0 < (rest.drop cls.capacity).length := by
        rw [length_drop]
        omega
      obtain ⟨after, more, final, junk, run, still, follows, there, data, frame, front, same,
        move'⟩ := induction written enough' nonempty'
          (by rw [← capacity'] at capacity; exact capacity)
      have prevSame : after.file blockPrev =
          some { next := block, data := rest.take cls.capacity } := by
        rw [frame blockPrev other notFree' (Nat.lt_of_lt_of_le less grows), file_setBlock_self]
      refine ⟨after, block :: more, final, junk, run, ?_, ?_, ?_, ?_, ?_, ?_, same.trans capacity',
        move'.trans move⟩
      · apply still.perm
        exact perm_middle.symm
      · apply Follows.cons (Nat.ne_of_gt (blocks.range
          (mem_append_right _ (mem_append_left _ here))).1)
        have next : after.nextOf blockPrev = block := by
          rw [nextOf, prevSame]
          rfl
        rw [next]
        exact follows
      · intro b mem
        rcases mem_cons.mp mem with rfl | mem
        · rw [prevSame]
          rfl
        · exact there b mem
      · have split : after.dataOf (blockPrev :: block :: more) =
            rest.take cls.capacity ++ after.dataOf (block :: more) := by
          rw [dataOf, flatMap_cons, prevSame]
          rfl
        rw [split, data, ← append_assoc, take_append_drop]
      · intro b notPrev outside below
        obtain ⟨notBlock, notFree''⟩ := apart b outside below
        rw [frame b notBlock notFree'' (Nat.lt_of_lt_of_le below grows),
          file_setBlock_of_ne _ _ notPrev, file]
      · exact ⟨_, prevSame, prefix_rfl⟩

end

end Zebra.Records
