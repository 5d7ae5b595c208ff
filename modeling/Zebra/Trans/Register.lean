import Mathlib.Logic.Function.Basic
import Mathlib.Data.Nat.Notation

/-!
# The register, its shadow and the state file

`zebraapi.c`: a write transaction writes to the register files or to the shadow files, and a commit
copies the shadow to the register.  The state file has a letter and a sequence number, from which a
reader tells whether the register files it has open are still those on disk.
-/

namespace Zebra.Trans

open List Function

variable {κ β : Type} [DecidableEq κ]

/-- The letter of the state file: written to, only read, or in the middle of a commit. -/
inductive Val where
  | d
  | o
  | c
  deriving DecidableEq

/-- The state file and the blocks of all files; blocks have names in `κ`. -/
structure Disk (κ β : Type) where
  val : Val
  seqno : Nat
  register : κ → β
  /-- The blocks written to the shadow, last ones last; none without a map file. -/
  shadow : Option (List (κ × β))

def writeBlocks (files : κ → β) (blocks : List (κ × β)) : κ → β :=
  blocks.foldl (fun files block => Function.update files block.1 block.2) files

/-- What is written does not depend on what was there before. -/
theorem writeBlocks_congr {files files' : κ → β} {blocks : List (κ × β)}
    (same : ∀ i, i ∉ blocks.map Prod.fst → files i = files' i) :
    writeBlocks files blocks = writeBlocks files' blocks := by
  induction blocks generalizing files files' with
  | nil => exact funext fun i => same i (not_mem_nil)
  | cons block blocks induction =>
    refine induction fun i absent => ?_
    change update files block.1 block.2 i = update files' block.1 block.2 i
    by_cases written : i = block.1
    · subst written
      simp
    · rw [update_of_ne written, update_of_ne written]
      refine same i ?_
      rw [map_cons, mem_cons]
      exact not_or.mpr ⟨written, absent⟩

theorem writeBlocks_of_notMem (files : κ → β) {blocks : List (κ × β)} {i : κ}
    (absent : i ∉ blocks.map Prod.fst) : writeBlocks files blocks i = files i := by
  induction blocks generalizing files with
  | nil => rfl
  | cons block blocks induction =>
    rw [map_cons, mem_cons, not_or] at absent
    exact (induction _ absent.2).trans (update_of_ne absent.1 _ _)

def Disk.view (disk : Disk κ β) (useShadow : Bool) : κ → β :=
  if useShadow then writeBlocks disk.register (disk.shadow.getD []) else disk.register

def zebraSetState (disk : Disk κ β) (val : Val) (seqno : Nat) : Disk κ β :=
  { disk with val, seqno }

def bfCommitExec (disk : Disk κ β) : Disk κ β :=
  { disk with register := writeBlocks disk.register (disk.shadow.getD []) }

def bfCommitClean (disk : Disk κ β) : Disk κ β := { disk with shadow := none }

/-- The resources of a session: whether a `shadow` is configured, and `shadow_enable`. -/
structure Mode where
  shadow : Bool
  shadowEnable : Bool

/-- `zebra_commit_ex` without `clean_only`, when every step succeeds. -/
def zebraCommit (mode : Mode) (disk : Disk κ β) : Disk κ β :=
  if mode.shadow then
    let seqno := disk.seqno
    if disk.shadow.isSome then
      let disk :=
        if disk.val = .d then zebraSetState disk .d seqno
        else bfCommitExec (zebraSetState disk .c seqno)
      bfCommitClean (zebraSetState disk .o (seqno + 1))
    else disk
  else disk

/-- Whether `zebra_begin_trans` opens the register with its shadow for writing. -/
def Mode.useShadow (mode : Mode) : Bool := mode.shadowEnable && mode.shadow

/-- The write part of `zebra_begin_trans`, up to the opened register. -/
def zebraBeginTrans (mode : Mode) (disk : Disk κ β) : Disk κ β :=
  let val := disk.val
  let seqno := disk.seqno
  let disk := if val ≠ .o then zebraCommit mode disk else disk
  let disk := zebraSetState disk .d seqno
  -- opening the first file of a shadow makes the map file
  if mode.useShadow then { disk with shadow := some (disk.shadow.getD []) } else disk

/-- What the transaction writes, up to `zebra_register_close`. -/
def writeRegister (mode : Mode) (blocks : List (κ × β)) (disk : Disk κ β) : Disk κ β :=
  if mode.useShadow then { disk with shadow := some (disk.shadow.getD [] ++ blocks) }
  else { disk with register := writeBlocks disk.register blocks }

/-- The write part of `zebra_end_transaction`, when the register has been closed. -/
def zebraEndTransaction (mode : Mode) (disk : Disk κ β) : Disk κ β :=
  let seqno := disk.seqno
  let disk := if disk.val ≠ .d then bfCommitClean disk else disk
  zebraSetState disk .o (if mode.shadow then seqno else seqno + 1)

def writeTrans (mode : Mode) (blocks : List (κ × β)) (disk : Disk κ β) : Disk κ β :=
  zebraEndTransaction mode (writeRegister mode blocks (zebraBeginTrans mode disk))

/-- `zh->reg` of a reader, with what its files had when they were opened. -/
structure Reg (κ β : Type) where
  lastVal : Val
  seqno : Nat
  seen : κ → β

/-- A register opened for reading uses the shadow in the middle of a commit. -/
def readsShadow (val : Val) : Bool := val = .c

def readVal (val : Val) : Val := if val = .d then .o else val

/-- Whether `zebra_begin_trans` keeps the register that the reader has open. -/
def keepsReg (disk : Disk κ β) (reg : Reg κ β) : Bool :=
  disk.seqno = reg.seqno ∧ reg.lastVal = readVal disk.val

/-- The read part of `zebra_begin_trans`. -/
def zebraBeginRead (disk : Disk κ β) (reg : Option (Reg κ β)) : Reg κ β :=
  let opened : Reg κ β :=
    { lastVal := readVal disk.val
      seqno := disk.seqno
      seen := disk.view (readsShadow (readVal disk.val)) }
  reg.elim opened fun reg => if keepsReg disk reg then reg else opened

end Zebra.Trans
