import Zebra.Trans.Register

/-!
# Sessions that are killed

With shadow files every call is a list of operations on files, each of them atomic, and a session
may be killed between any two of them.  Recovery goes by the letter of the state file.
-/

namespace Zebra.Trans

open List

variable {κ β : Type} [DecidableEq κ]

abbrev Writes (κ β : Type) := List (κ × β)

/-- The completed transactions that are in the register, and those that are not yet. -/
structure Books (κ β : Type) where
  applied : List (Writes κ β)
  pending : List (Writes κ β)

/-- A commit applies what is pending. -/
def Books.settle (books : Books κ β) : Books κ β :=
  { applied := books.applied ++ books.pending, pending := [] }

def Books.complete (writes : Writes κ β) (books : Books κ β) : Books κ β :=
  { books with pending := books.pending ++ [writes] }

inductive Step (κ β : Type) where
  /-- `zebra_set_state` opens the state file for writing, which empties it. -/
  | emptyState
  /-- What `zebra_set_state` writes to the empty file. -/
  | setState (val : Val) (seqno : Nat)
  | copy (block : κ × β)
  /-- `zebra_set_state` empties the state file when a commit has copied all blocks. -/
  | settle
  /-- `bf_commitClean` has begun to remove the files of the shadow. -/
  | remove
  /-- The map file is removed. -/
  | clean
  /-- `cf_open` makes a file of the shadow. -/
  | makeShadow
  /-- `bf_open` writes the line of the file to the map file. -/
  | openShadow
  | write (block : κ × β)
  /-- `zebra_set_state` empties the state file at the end of a transaction. -/
  | complete (writes : Writes κ β)

/-- The files and what they should stand for. -/
structure World (κ β : Type) where
  disk : Disk κ β
  books : Books κ β
  /-- The shadow has blocks of a transaction that is not completed. -/
  unfinished : Bool
  /-- A commit has copied blocks and has not come to its end. -/
  started : Bool
  /-- The files of the shadow are not those of the map file. -/
  torn : Bool

/-- An empty state file is read as `o` with the number 0. -/
def Step.run (world : World κ β) : Step κ β → World κ β
  | .emptyState => { world with disk := zebraSetState world.disk .o 0 }
  | .setState val seqno => { world with disk := zebraSetState world.disk val seqno }
  | .copy block =>
    { world with
      disk := { world.disk with register := writeBlocks world.disk.register [block] }
      started := true }
  | .settle =>
    { world with
      disk := zebraSetState world.disk .o 0
      books := world.books.settle
      started := false }
  | .remove => { world with torn := true }
  | .clean =>
    { disk := bfCommitClean world.disk
      books := { world.books with pending := [] }
      unfinished := false
      started := world.started
      torn := false }
  | .makeShadow => { world with torn := world.disk.shadow.isNone }
  | .openShadow =>
    { world with
      disk := { world.disk with shadow := some (world.disk.shadow.getD []) }
      torn := false }
  | .write block =>
    { world with
      disk := { world.disk with shadow := some (world.disk.shadow.getD [] ++ [block]) }
      unfinished := true }
  | .complete writes =>
    { world with
      disk := zebraSetState world.disk .o 0
      books := world.books.complete writes
      unfinished := false }

def runSteps (world : World κ β) (steps : List (Step κ β)) : World κ β :=
  steps.foldl Step.run world

/-- The blocks of the shadow, each as it was written last. -/
def shadowBlocks : List (κ × β) → List (κ × β)
  | [] => []
  | block :: blocks =>
    if block.1 ∈ blocks.map Prod.fst then shadowBlocks blocks else block :: shadowBlocks blocks

/-- Whether `zebra_commit_ex` throws the shadow away: always when it is dirty, never when a commit
has started. -/
def cleans (cleanOnly : Bool) : Val → Bool
  | .d => true
  | .c => false
  | .o => cleanOnly

/-- `zebra_commit_ex` -/
def commitSteps (cleanOnly : Bool) (disk : Disk κ β) : List (Step κ β) :=
  let seqno := disk.seqno
  match disk.shadow with
  | none => []
  | some blocks =>
    if cleans cleanOnly disk.val then
      [.emptyState, .setState .d seqno, .emptyState, .setState .o (seqno + 1), .remove, .clean]
    else .emptyState :: .setState .c seqno ::
      ((shadowBlocks blocks).map Step.copy ++
        [.settle, .setState .o (seqno + 1), .remove, .clean])

/-- What `zebra_begin_trans` does first when the last transaction or commit has not come to its
end. -/
def recoverSteps (disk : Disk κ β) : List (Step κ β) :=
  if disk.val ≠ .o then commitSteps false disk else []

/-- The write part of `zebra_begin_trans`, with a shadow. -/
def beginSteps (disk : Disk κ β) : List (Step κ β) :=
  recoverSteps disk ++ [.emptyState, .setState .d disk.seqno, .makeShadow, .openShadow]

/-- A write transaction up to `zebra_end_transaction`, which finds the state `d`. -/
def transSteps (writes : Writes κ β) (disk : Disk κ β) : List (Step κ β) :=
  beginSteps disk ++ (writes.map Step.write ++ [.complete writes, .setState .o disk.seqno])

inductive Call (κ β : Type) where
  | trans (writes : Writes κ β)
  /-- `zebra_clean` or `zebra_commit` -/
  | commit (cleanOnly : Bool)

def Call.steps (disk : Disk κ β) : Call κ β → List (Step κ β)
  | .trans writes => transSteps writes disk
  | .commit cleanOnly => commitSteps cleanOnly disk

/-- A call, with how many operations have been done before the session was killed in it. -/
structure Event (κ β : Type) where
  call : Call κ β
  killed : Option Nat

def Event.steps (disk : Disk κ β) (event : Event κ β) : List (Step κ β) :=
  event.killed.elim (event.call.steps disk) fun n => (event.call.steps disk).take n

def runEvents (world : World κ β) (events : List (Event κ β)) : World κ β :=
  events.foldl (fun world event => runSteps world (event.steps world.disk)) world

/-- The files tell nothing of what is unfinished: the state file is empty or says `o` although the
shadow has blocks of a transaction that is not completed or a commit has been started, or the files
of the shadow are not those of the map file. -/
def World.Exposed (world : World κ β) : Prop :=
  (world.disk.val = .o ∧ (world.unfinished = true ∨ world.started = true)) ∨
    world.torn = true

/-- No session is killed while the files tell nothing of what is unfinished. -/
def AllSpared (world : World κ β) : List (Event κ β) → Prop
  | [] => True
  | event :: events =>
    (event.killed.isSome → ¬ (runSteps world (event.steps world.disk)).Exposed) ∧
      AllSpared (runSteps world (event.steps world.disk)) events

/-- A register that nothing has been written to, without a shadow. -/
def fresh (register : κ → β) : World κ β where
  disk := { val := .o, seqno := 0, register, shadow := none }
  books := { applied := [], pending := [] }
  unfinished := false
  started := false
  torn := false

section

theorem writeBlocks_append (files : κ → β) (front back : List (κ × β)) :
    writeBlocks files (front ++ back) = writeBlocks (writeBlocks files front) back :=
  foldl_append

/-- Blocks that are written again afterwards do not matter. -/
theorem writeBlocks_overwrite (files : κ → β) {part blocks : List (κ × β)}
    (inside : ∀ block ∈ part, block.1 ∈ blocks.map Prod.fst) :
    writeBlocks (writeBlocks files part) blocks = writeBlocks files blocks := by
  refine writeBlocks_congr fun i absent => writeBlocks_of_notMem files fun mem => absent ?_
  obtain ⟨block, block_mem, rfl⟩ := mem_map.mp mem
  exact inside block block_mem

theorem mem_of_shadowBlocks {blocks : List (κ × β)} :
    ∀ block ∈ shadowBlocks blocks, block ∈ blocks := by
  induction blocks with
  | nil => exact fun block mem => mem
  | cons first blocks induction =>
    intro block mem
    rw [shadowBlocks] at mem
    split at mem
    · exact .tail _ (induction block mem)
    · obtain rfl | mem := mem_cons.mp mem
      · exact .head _
      · exact .tail _ (induction block mem)

theorem writeBlocks_shadowBlocks (files : κ → β) (blocks : List (κ × β)) :
    writeBlocks files (shadowBlocks blocks) = writeBlocks files blocks := by
  induction blocks generalizing files with
  | nil => rfl
  | cons first blocks induction =>
    rw [shadowBlocks]
    split
    next again =>
      have overwritten : writeBlocks (writeBlocks files [first]) blocks =
          writeBlocks files blocks :=
        writeBlocks_overwrite files fun block mem => mem_singleton.mp mem ▸ again
      exact (induction files).trans overwritten.symm
    · exact induction _

end

/-- What the files stand for, at every point of a call. -/
structure Good (register : κ → β) (world : World κ β) : Prop where
  register_eq : world.started = false →
    world.disk.register = writeBlocks register world.books.applied.flatten
  empty : world.disk.shadow = none → world.books.pending = [] ∧ world.unfinished = false
  shadow_eq : world.unfinished = false → ∀ blocks, world.disk.shadow = some blocks →
    writeBlocks (writeBlocks register world.books.applied.flatten) blocks =
      writeBlocks (writeBlocks register world.books.applied.flatten) world.books.pending.flatten
  copied : world.started = true → ∃ blocks, world.disk.shadow = some blocks ∧
    writeBlocks world.disk.register blocks =
      writeBlocks (writeBlocks register world.books.applied.flatten) blocks
  unfinished_letter : world.unfinished = true → world.disk.val ≠ .c
  started_letter : world.started = true → world.disk.val ≠ .d

/-- Something is so wherever the session may be killed. -/
def Safe (P : World κ β → Prop) : World κ β → List (Step κ β) → Prop
  | world, [] => P world
  | world, step :: steps => P world ∧ Safe P (step.run world) steps

section

variable {P Q : World κ β → Prop} {world : World κ β} {steps : List (Step κ β)}

theorem Safe.take (safe : Safe P world steps) (n : Nat) : P (runSteps world (steps.take n)) := by
  induction steps generalizing world n with
  | nil =>
    rw [take_nil]
    exact safe
  | cons step steps induction =>
    cases n with
    | zero => exact safe.1
    | succ n => exact induction safe.2 n

theorem Safe.all (safe : Safe P world steps) : P (runSteps world steps) := by
  have whole := safe.take steps.length
  rwa [take_length] at whole

theorem Safe.imp (safe : Safe P world steps) (imp : ∀ world, P world → Q world) :
    Safe Q world steps := by
  induction steps generalizing world with
  | nil => exact imp world safe
  | cons step steps induction => exact ⟨imp world safe.1, induction safe.2⟩

theorem Safe.append {more : List (Step κ β)} (safe : Safe P world steps)
    (then_safe : Safe P (runSteps world steps) more) : Safe P world (steps ++ more) := by
  induction steps generalizing world with
  | nil => exact then_safe
  | cons step steps induction => exact ⟨safe.1, induction safe.2 then_safe⟩

theorem runSteps_append (world : World κ β) (front back : List (Step κ β)) :
    runSteps world (front ++ back) = runSteps (runSteps world front) back := foldl_append

/-- `bf_open` and `bf_commitClean` change which files there are. -/
def Step.tears : Step κ β → Bool
  | .makeShadow => true
  | .openShadow => true
  | .remove => true
  | .clean => true
  | _ => false

theorem runSteps_torn (others : ∀ step ∈ steps, step.tears = false) :
    (runSteps world steps).torn = world.torn := by
  induction steps generalizing world with
  | nil => rfl
  | cons step steps induction =>
    obtain ⟨first, rest⟩ := forall_mem_cons.mp others
    refine (induction rest).trans ?_
    cases step with
    | makeShadow => cases first
    | openShadow => cases first
    | remove => cases first
    | clean => cases first
    | _ => rfl

end

section

variable {register : κ → β} {world : World κ β}

/-- Another letter in the state file, which does not say what is not so -/
theorem Good.letter (good : Good register world) {val : Val} {seqno : Nat}
    (unfinished : world.unfinished = true → val ≠ .c) (started : world.started = true → val ≠ .d) :
    Good register { world with disk := zebraSetState world.disk val seqno } where
  register_eq := good.register_eq
  empty := good.empty
  shadow_eq := good.shadow_eq
  copied := good.copied
  unfinished_letter := unfinished
  started_letter := started

theorem Good.read (good : Good register world) {seqno : Nat} :
    Good register { world with disk := zebraSetState world.disk .o seqno } :=
  good.letter (fun _ => Val.noConfusion) fun _ => Val.noConfusion

/-- Without a shadow nothing is unfinished. -/
theorem Good.idle (good : Good register world) (none : world.disk.shadow = none) :
    world.unfinished = false ∧ world.started = false := by
  refine ⟨(good.empty none).2, eq_false_of_ne_true fun started => ?_⟩
  obtain ⟨blocks, shadow, -⟩ := good.copied started
  rw [none] at shadow
  cases shadow

theorem Good.remove (good : Good register world) : Good register (Step.run world .remove) :=
  ⟨good.register_eq, good.empty, good.shadow_eq, good.copied, good.unfinished_letter,
    good.started_letter⟩

theorem Good.clean (good : Good register world) (settled : world.started = false) :
    Good register (Step.run world .clean) where
  register_eq _ := good.register_eq settled
  empty _ := ⟨rfl, rfl⟩
  shadow_eq _ blocks shadow := by cases shadow
  copied started := by
    rw [show (Step.run world .clean).started = world.started from rfl, settled] at started
    cases started
  unfinished_letter unfinished := by cases unfinished
  started_letter started := by
    rw [show (Step.run world .clean).started = world.started from rfl, settled] at started
    cases started

/-- While the blocks are copied the commit may be begun again. -/
theorem copies_safe {blocks copies : List (κ × β)} (letter : world.disk.val = .c)
    (shadow : world.disk.shadow = some blocks) (good : Good register world)
    (same : writeBlocks world.disk.register blocks =
      writeBlocks (writeBlocks register world.books.applied.flatten) blocks)
    (inside : ∀ block ∈ copies, block.1 ∈ blocks.map Prod.fst) {rest : List (Step κ β)}
    (then_safe : ∀ last : World κ β, Good register last → last.disk.shadow = some blocks →
      last.disk.register = writeBlocks world.disk.register copies → last.books = world.books →
      last.unfinished = world.unfinished → Safe (Good register) last rest) :
    Safe (Good register) world (copies.map Step.copy ++ rest) := by
  induction copies generalizing world with
  | nil => exact then_safe world good shadow rfl rfl rfl
  | cons block copies induction =>
    obtain ⟨first, later⟩ := forall_mem_cons.mp inside
    have same' : writeBlocks (writeBlocks world.disk.register [block]) blocks =
        writeBlocks (writeBlocks register world.books.applied.flatten) blocks := by
      refine Eq.trans ?_ same
      exact writeBlocks_overwrite _ fun one mem => mem_singleton.mp mem ▸ first
    have copied : Good register (Step.run world (.copy block)) := {
      register_eq := fun settled => by cases settled
      empty := good.empty
      shadow_eq := good.shadow_eq
      copied := fun _ => ⟨blocks, shadow, same'⟩
      unfinished_letter := good.unfinished_letter
      started_letter := fun _ => by
        change world.disk.val ≠ .d
        rw [letter]
        exact Val.noConfusion }
    exact ⟨good, induction letter shadow copied same' later then_safe⟩

/-- `zebra_commit_ex` may be killed anywhere. -/
theorem commit_safe (good : Good register world) (spared : ¬ world.Exposed) (cleanOnly : Bool) :
    Safe (Good register) world (commitSteps cleanOnly world.disk) := by
  rw [commitSteps]
  cases shadow : world.disk.shadow with
  | none => exact good
  | some blocks =>
    dsimp only
    split
    next cleaned =>
      have settled : world.started = false := by
        refine eq_false_of_ne_true fun started => ?_
        cases letter : world.disk.val with
        | d => exact good.started_letter started letter
        | o => exact spared (.inl ⟨letter, .inr started⟩)
        | c =>
          rw [letter] at cleaned
          cases cleaned
      have dirty : Good register
          { world with disk := zebraSetState world.disk .d world.disk.seqno } :=
        good.letter (fun _ => Val.noConfusion) fun started => by
          rw [settled] at started
          cases started
      exact ⟨good, good.read, dirty, dirty.read, dirty.read, dirty.read.remove,
        dirty.read.remove.clean settled⟩
    next kept =>
      have complete : world.unfinished = false := by
        refine eq_false_of_ne_true fun unfinished => ?_
        cases letter : world.disk.val with
        | d =>
          rw [letter] at kept
          exact kept rfl
        | o => exact spared (.inl ⟨letter, .inl unfinished⟩)
        | c => exact good.unfinished_letter unfinished letter
      have same : writeBlocks world.disk.register blocks =
          writeBlocks (writeBlocks register world.books.applied.flatten) blocks := by
        cases started : world.started with
        | false => rw [good.register_eq started]
        | true =>
          obtain ⟨blocks', shadow', same⟩ := good.copied started
          obtain rfl := Option.some.inj (shadow.symm.trans shadow')
          exact same
      have begun : Good register
          { world with disk := zebraSetState world.disk .c world.disk.seqno } :=
        good.letter (fun unfinished => by
          rw [complete] at unfinished
          cases unfinished) fun _ => Val.noConfusion
      refine ⟨good, good.read, ?_⟩
      refine @copies_safe _ _ _ _
        (Step.run (Step.run world .emptyState) (.setState .c world.disk.seqno))
        blocks _ rfl shadow begun same
          (fun block mem => mem_map_of_mem (mem_of_shadowBlocks block mem)) _ ?_
      intro last good_last shadow_last register_last books_last unfinished_last
      change last.disk.register = writeBlocks world.disk.register
        (shadowBlocks blocks) at register_last
      change last.books = world.books at books_last
      have whole : last.disk.register = writeBlocks register last.books.settle.applied.flatten := by
        change _ = writeBlocks register (last.books.applied ++ last.books.pending).flatten
        rw [register_last, books_last, writeBlocks_shadowBlocks, same, flatten_append,
          writeBlocks_append, good.shadow_eq complete blocks shadow]
      have settled : Good register (Step.run last .settle) := {
        register_eq := fun _ => whole
        empty := fun none => by cases shadow_last.symm.trans none
        -- what the shadow still has is in the register already
        shadow_eq := fun _ blocks' shadow' => by
          obtain rfl := Option.some.inj (shadow_last.symm.trans shadow')
          change writeBlocks (writeBlocks register last.books.settle.applied.flatten) blocks =
            writeBlocks register last.books.settle.applied.flatten
          rw [← whole, register_last, writeBlocks_shadowBlocks]
          exact writeBlocks_overwrite _ fun block mem => mem_map_of_mem mem
        copied := fun started => by cases started
        unfinished_letter := fun unfinished =>
          absurd (complete.symm.trans (unfinished_last.symm.trans unfinished)) Bool.noConfusion
        started_letter := fun started => by cases started }
      exact ⟨good_last, settled, settled.read, settled.read.remove, settled.read.remove.clean rfl⟩

theorem commit_clean (cleanOnly : Bool) (world : World κ β) :
    commitSteps cleanOnly world.disk = [] ∧ world.disk.shadow = none ∨
      ∃ front, commitSteps cleanOnly world.disk = front ++ [.clean] := by
  rw [commitSteps]
  cases shadow : world.disk.shadow with
  | none => exact .inl ⟨rfl, rfl⟩
  | some blocks =>
    refine .inr ?_
    dsimp only
    split
    · exact ⟨[.emptyState, .setState .d _, .emptyState, .setState .o _, .remove], rfl⟩
    · exact ⟨.emptyState :: .setState .c _ :: ((shadowBlocks blocks).map Step.copy ++
        [.settle, .setState .o _, .remove]), by rw [cons_append, cons_append, append_assoc]; rfl⟩

theorem commit_shadow (cleanOnly : Bool) (world : World κ β) :
    (runSteps world (commitSteps cleanOnly world.disk)).disk.shadow = none := by
  rcases commit_clean cleanOnly world with ⟨steps, none⟩ | ⟨front, steps⟩
  · rw [steps]
    exact none
  · rw [steps, runSteps_append]
    rfl

/-- A commit that comes to its end leaves nothing unfinished. -/
theorem commit_spared (good : Good register world) (spared : ¬ world.Exposed) (cleanOnly : Bool) :
    ¬ (runSteps world (commitSteps cleanOnly world.disk)).Exposed := by
  obtain ⟨unfinished, started⟩ :=
    (commit_safe good spared cleanOnly).all.idle (commit_shadow cleanOnly world)
  rw [World.Exposed, unfinished, started]
  rintro (⟨-, told | told⟩ | torn)
  · cases told
  · cases told
  · rcases commit_clean cleanOnly world with ⟨steps, -⟩ | ⟨front, steps⟩
    · rw [steps] at torn
      exact spared (.inr torn)
    · rw [steps, runSteps_append] at torn
      cases torn

/-- The recovery at the beginning of a write transaction. -/
theorem recovered (good : Good register world) (spared : ¬ world.Exposed) :
    Safe (Good register) world (recoverSteps world.disk) ∧
      (runSteps world (recoverSteps world.disk)).unfinished = false ∧
      (runSteps world (recoverSteps world.disk)).started = false := by
  rw [recoverSteps]
  split
  · exact ⟨commit_safe good spared false,
      (commit_safe good spared false).all.idle (commit_shadow false world)⟩
  next letter =>
    have read := not_not.mp letter
    refine ⟨good, eq_false_of_ne_true fun unfinished => ?_, eq_false_of_ne_true fun started => ?_⟩
    · exact spared (.inl ⟨read, .inl unfinished⟩)
    · exact spared (.inl ⟨read, .inr started⟩)

/-- What a write transaction writes is in the shadow, which is dirty until it is completed. -/
theorem writes_safe {blocks : List (κ × β)} {writes : Writes κ β} (letter : world.disk.val = .d)
    (good : Good register world) (settled : world.started = false)
    (shadow : world.disk.shadow = some blocks) {rest : List (Step κ β)}
    (then_safe : ∀ last : World κ β, Good register last → last.started = false →
      last.disk.shadow = some (blocks ++ writes) → last.books = world.books →
      Safe (fun world => Good register world ∧ world.started = false) last rest) :
    Safe (fun world => Good register world ∧ world.started = false) world
      (writes.map Step.write ++ rest) := by
  induction writes generalizing world blocks with
  | nil => exact then_safe world good settled (shadow.trans (by rw [append_nil])) rfl
  | cons block writes induction =>
    have next : (Step.run world (.write block)).disk.shadow = some (blocks ++ [block]) := by
      change some (world.disk.shadow.getD [] ++ [block]) = _
      rw [shadow]
      rfl
    have written : Good register (Step.run world (.write block)) := {
      register_eq := good.register_eq
      empty := fun none => by cases next.symm.trans none
      shadow_eq := fun complete => by cases complete
      copied := fun started => absurd (settled.symm.trans started) Bool.noConfusion
      unfinished_letter := fun _ => by
        change world.disk.val ≠ .c
        rw [letter]
        exact Val.noConfusion
      started_letter := fun started => absurd (settled.symm.trans started) Bool.noConfusion }
    refine ⟨⟨good, settled⟩,
      induction letter written settled next fun last good settled shadow books => ?_⟩
    refine then_safe last good settled (shadow.trans ?_) books
    rw [append_assoc]
    rfl

/-- What follows the recovery; no commit is started in it. -/
def laterSteps (seqno : Nat) (writes : Writes κ β) : List (Step κ β) :=
  [.emptyState, .setState .d seqno, .makeShadow, .openShadow] ++
    (writes.map Step.write ++ [.complete writes, .setState .o seqno])

theorem transSteps_eq (writes : Writes κ β) (disk : Disk κ β) :
    transSteps writes disk = recoverSteps disk ++ laterSteps disk.seqno writes := append_assoc _ _ _

theorem later_safe (good : Good register world) (complete : world.unfinished = false)
    (settled : world.started = false) (seqno : Nat) (writes : Writes κ β) :
    Safe (fun world => Good register world ∧ world.started = false) world
      (laterSteps seqno writes) := by
  have not_started {P : Prop} (started : world.started = true) : P :=
    absurd (settled.symm.trans started) Bool.noConfusion
  have dirty : Good register { world with disk := zebraSetState world.disk .d seqno } :=
    good.letter (fun _ => Val.noConfusion) not_started
  have made : Good register (Step.run { world with disk := zebraSetState world.disk .d seqno }
      .makeShadow) :=
    ⟨dirty.register_eq, dirty.empty, dirty.shadow_eq, dirty.copied, dirty.unfinished_letter,
      dirty.started_letter⟩
  have shadow_eq : writeBlocks (writeBlocks register world.books.applied.flatten)
      (world.disk.shadow.getD []) = writeBlocks (writeBlocks register world.books.applied.flatten)
        world.books.pending.flatten := by
    cases shadow : world.disk.shadow with
    | none =>
      rw [(good.empty shadow).1]
      rfl
    | some blocks => exact good.shadow_eq complete blocks shadow
  have opened : Good register (Step.run (Step.run
      { world with disk := zebraSetState world.disk .d seqno } .makeShadow) .openShadow) := {
    register_eq := good.register_eq
    empty := fun none => by cases none
    shadow_eq := fun _ blocks shadow => Option.some.inj shadow ▸ shadow_eq
    copied := not_started
    unfinished_letter := fun unfinished => absurd (complete.symm.trans unfinished) Bool.noConfusion
    started_letter := not_started }
  refine ⟨⟨good, settled⟩, ⟨good.read, settled⟩, ⟨dirty, settled⟩, ⟨made, settled⟩, ?_⟩
  refine writes_safe rfl opened settled rfl fun last good_last settled_last shadow books => ?_
  have completed : Good register (Step.run last (.complete writes)) := {
    register_eq := good_last.register_eq
    empty := fun none => by cases shadow.symm.trans none
    shadow_eq := fun _ blocks written => by
      obtain rfl := Option.some.inj (shadow.symm.trans written)
      change writeBlocks (writeBlocks register last.books.applied.flatten)
          (world.disk.shadow.getD [] ++ writes) =
        writeBlocks (writeBlocks register last.books.applied.flatten)
          (last.books.pending ++ [writes]).flatten
      rw [books, writeBlocks_append, flatten_append, flatten_singleton, writeBlocks_append]
      exact congrArg (writeBlocks · writes) shadow_eq
    copied := fun started => absurd (settled_last.symm.trans started) Bool.noConfusion
    unfinished_letter := fun unfinished => by cases unfinished
    started_letter := fun started => absurd (settled_last.symm.trans started) Bool.noConfusion }
  exact ⟨⟨good_last, settled_last⟩, ⟨completed, settled_last⟩, completed.read, settled_last⟩

/-- A write transaction may be killed anywhere. -/
theorem trans_safe (good : Good register world) (spared : ¬ world.Exposed) (writes : Writes κ β) :
    Safe (Good register) world (transSteps writes world.disk) := by
  obtain ⟨front_safe, complete, settled⟩ := recovered good spared
  rw [transSteps_eq]
  exact front_safe.append
    ((later_safe front_safe.all complete settled _ writes).imp fun _ => And.left)

/-- A write transaction that comes to its end leaves nothing unfinished. -/
theorem trans_spared (good : Good register world) (spared : ¬ world.Exposed) (writes : Writes κ β) :
    ¬ (runSteps world (transSteps writes world.disk)).Exposed := by
  obtain ⟨front_safe, complete, settled⟩ := recovered good spared
  have started := (later_safe front_safe.all complete settled world.disk.seqno writes).all.2
  have torn : (runSteps world (transSteps writes world.disk)).torn = false := by
    rw [transSteps, runSteps_append, runSteps_torn]
    · rw [beginSteps, runSteps_append]
      rfl
    · intro step mem
      simp only [mem_append, mem_map, mem_cons, not_mem_nil, or_false] at mem
      obtain ⟨block, -, rfl⟩ | rfl | rfl := mem <;> rfl
  have unfinished : (runSteps world (transSteps writes world.disk)).unfinished = false := by
    rw [transSteps, show [Step.complete writes, .setState .o world.disk.seqno] =
      [Step.complete writes] ++ [.setState .o world.disk.seqno] from rfl, ← append_assoc,
      ← append_assoc, runSteps_append, runSteps_append]
    rfl
  rw [transSteps_eq, runSteps_append] at torn unfinished ⊢
  rw [World.Exposed, torn, unfinished, started]
  rintro (⟨-, told | told⟩ | torn)
  · cases told
  · cases told
  · cases torn

theorem event_safe (good : Good register world) (spared : ¬ world.Exposed) (call : Call κ β) :
    Safe (Good register) world (call.steps world.disk) ∧
      ¬ (runSteps world (call.steps world.disk)).Exposed := by
  cases call with
  | trans writes => exact ⟨trans_safe good spared writes, trans_spared good spared writes⟩
  | commit cleanOnly => exact ⟨commit_safe good spared cleanOnly,
      commit_spared good spared cleanOnly⟩

theorem event_good (good : Good register world) (spared : ¬ world.Exposed) (event : Event κ β) :
    Good register (runSteps world (event.steps world.disk)) := by
  obtain ⟨safe, -⟩ := event_safe good spared event.call
  rw [Event.steps]
  cases killed : event.killed with
  | none => exact safe.all
  | some n => exact safe.take n

theorem events_good (good : Good register world) (spared : ¬ world.Exposed)
    {events : List (Event κ β)} (all : AllSpared world events) :
    Good register (runEvents world events) ∧ ¬ (runEvents world events).Exposed := by
  induction events generalizing world with
  | nil => exact ⟨good, spared⟩
  | cons event events induction =>
    refine induction (event_good good spared event) ?_ all.2
    cases killed : event.killed with
    | none =>
      have steps : event.steps world.disk = event.call.steps world.disk := by
        rw [Event.steps, killed]
        rfl
      change ¬ (runSteps world (event.steps world.disk)).Exposed
      rw [steps]
      exact (event_safe good spared event.call).2
    | some n => exact all.1 (killed ▸ rfl)

theorem fresh_good (register : κ → β) : Good register (fresh register) where
  register_eq _ := rfl
  empty _ := ⟨rfl, rfl⟩
  shadow_eq _ blocks shadow := by cases shadow
  copied started := by cases started
  unfinished_letter unfinished := by cases unfinished
  started_letter started := by cases started

omit [DecidableEq κ] in
theorem fresh_spared (register : κ → β) : ¬ (fresh register).Exposed := by
  rintro (⟨-, told | told⟩ | torn)
  · cases told
  · cases told
  · cases torn

/-- The transactions that are completed by some operations. -/
def Step.completes : Step κ β → Option (Writes κ β)
  | .complete writes => some writes
  | _ => none

def completed (world : World κ β) : List (Event κ β) → List (Writes κ β)
  | [] => []
  | event :: events =>
    (event.steps world.disk).filterMap Step.completes ++
      completed (runSteps world (event.steps world.disk)) events

/-- All that is applied or pending has been completed, in the same order. -/
theorem books_sublist (world : World κ β) (steps : List (Step κ β)) :
    ((runSteps world steps).books.applied ++ (runSteps world steps).books.pending).Sublist
      (world.books.applied ++ world.books.pending ++ steps.filterMap Step.completes) := by
  induction steps generalizing world with
  | nil => exact sublist_append_left _ _
  | cons step steps induction =>
    refine (induction (step.run world)).trans ?_
    cases step with
    | settle =>
      refine Sublist.append ?_ (Sublist.refl _)
      have same : world.books.applied ++ world.books.pending ++ [] =
          world.books.applied ++ world.books.pending := append_nil _
      exact same ▸ Sublist.refl _
    | clean => exact ((Sublist.refl _).append (nil_sublist _)).append (Sublist.refl _)
    | complete writes =>
      have here : (Step.complete writes :: steps).filterMap Step.completes =
          writes :: steps.filterMap Step.completes := rfl
      have same : world.books.applied ++ (world.books.pending ++ [writes]) ++
          steps.filterMap Step.completes =
          world.books.applied ++ world.books.pending ++
            (writes :: steps.filterMap Step.completes) := by
        rw [← append_assoc, append_assoc _ [writes], singleton_append]
      exact here ▸ same ▸ Sublist.refl _
    | emptyState => exact Sublist.refl _
    | setState val seqno => exact Sublist.refl _
    | copy block => exact Sublist.refl _
    | remove => exact Sublist.refl _
    | makeShadow => exact Sublist.refl _
    | openShadow => exact Sublist.refl _
    | write block => exact Sublist.refl _

theorem events_sublist (world : World κ β) (events : List (Event κ β)) :
    ((runEvents world events).books.applied ++ (runEvents world events).books.pending).Sublist
      (world.books.applied ++ world.books.pending ++ completed world events) := by
  induction events generalizing world with
  | nil => exact sublist_append_left _ _
  | cons event events induction =>
    refine (induction (runSteps world (event.steps world.disk))).trans ?_
    rw [completed, ← append_assoc]
    exact (books_sublist world _).append (Sublist.refl _)

/-- The call succeeds as a commit or as a write transaction that has begun. -/
def Event.Succeeds (disk : Disk κ β) (event : Event κ β) : Prop :=
  match event.call with
  | .trans _ => ∀ n ∈ event.killed, (beginSteps disk).length ≤ n
  | .commit cleanOnly => ∀ n ∈ event.killed, (commitSteps cleanOnly disk).length ≤ n

/-- A call that succeeds after a session of calls, killed or not, leaves the register with whole
transactions that have been completed: those that no commit has thrown away. -/
def Whole (register : κ → β) (events : List (Event κ β)) (last : Event κ β) : Prop :=
  let before := runEvents (fresh register) events
  let after := runSteps before (last.steps before.disk)
  last.Succeeds before.disk →
    after.disk.register = writeBlocks register after.books.applied.flatten ∧
      (after.books.applied ++ after.books.pending).Sublist
        (completed (fresh register) (events ++ [last]))

/-- Behind the recovery a write transaction is not in the middle of a commit. -/
theorem trans_started (good : Good register world) (spared : ¬ world.Exposed) (writes : Writes κ β)
    {n : Nat} (begun : (beginSteps world.disk).length ≤ n) :
    (runSteps world ((transSteps writes world.disk).take n)).started = false := by
  obtain ⟨front_safe, complete, settled⟩ := recovered good spared
  have behind : (recoverSteps world.disk).length ≤ n := by
    rw [beginSteps, length_append] at begun
    omega
  rw [transSteps_eq, take_append, take_of_length_le behind, runSteps_append]
  exact ((later_safe front_safe.all complete settled _ writes).take _).2

theorem event_started (good : Good register world) (spared : ¬ world.Exposed) {event : Event κ β}
    (succeeds : event.Succeeds world.disk) :
    (runSteps world (event.steps world.disk)).started = false := by
  have long (steps : List (Step κ β)) (succeeds : ∀ n ∈ event.killed, steps.length ≤ n) :
      event.killed.elim steps (fun n => steps.take n) = steps := by
    cases killed : event.killed with
    | none => rfl
    | some n => exact take_of_length_le (succeeds n killed)
  rw [Event.steps]
  rw [Event.Succeeds] at succeeds
  cases call : event.call with
  | commit cleanOnly =>
    rw [call] at succeeds
    change (runSteps world (event.killed.elim (commitSteps cleanOnly world.disk) fun n =>
      (commitSteps cleanOnly world.disk).take n)).started = false
    rw [long _ succeeds]
    exact ((commit_safe good spared cleanOnly).all.idle (commit_shadow cleanOnly world)).2
  | trans writes =>
    rw [call] at succeeds
    cases killed : event.killed with
    | none =>
      have whole := @trans_started _ _ _ _ _ good spared writes
        (transSteps writes world.disk).length
        (by
          rw [transSteps, length_append]
          omega)
      rw [take_length] at whole
      exact whole
    | some n => exact trans_started good spared writes (succeeds n killed)

end

end Zebra.Trans
