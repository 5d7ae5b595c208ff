import Zebra.Lib.Tally

/-!
# Locks of threads and processes

`zebra_lock_w`, `zebra_lock_r` and `zebra_unlock` on the handles of one lock file.  The handles of a
process share one `zebra_lock_info`: a lock for readers and a writer among the threads of the
process, and counters under a mutex that say when the `fcntl` lock of the process is taken and given
back.
-/

namespace Zebra.Flock

variable {H P : Type}

/-- `struct zebra_lock_info` with its `Zebra_lock_rdwr`, and the lock that the process has on the
file: `true` for `F_WRLCK` and `false` for `F_RDLCK`. -/
structure Info (H : Type) where
  readersReading : Nat
  writersWriting : Nat
  noFileReadLock : Nat
  noFileWriteLock : Nat
  fileMutex : Option H
  fileLock : Option Bool
  deriving DecidableEq

/-- What `zebra_lock_create` makes. -/
def lockCreate : Info H :=
  { readersReading := 0, writersWriting := 0, noFileReadLock := 0, noFileWriteLock := 0,
    fileMutex := none, fileLock := none }

/-- `none` where the thread waits for `lock_free`. -/
def lockRdwrRlock (p : Info H) : Option (Info H) :=
  if p.writersWriting ≠ 0 then none else some { p with readersReading := p.readersReading + 1 }

def lockRdwrWlock (p : Info H) : Option (Info H) :=
  if p.writersWriting ≠ 0 ∨ p.readersReading ≠ 0 then none
  else some { p with writersWriting := p.writersWriting + 1 }

def lockRdwrRunlock (p : Info H) : Info H :=
  if p.readersReading = 0 then p else { p with readersReading := p.readersReading - 1 }

def lockRdwrWunlock (p : Info H) : Info H :=
  if p.writersWriting = 0 then p else { p with writersWriting := p.writersWriting - 1 }

def doLock (write : Bool) (p : Info H) : Bool :=
  if write then p.noFileWriteLock == 0 else p.noFileReadLock == 0 && p.noFileWriteLock == 0

/-- The counter that `zebra_lock_w` or `zebra_lock_r` increments. -/
def countIn (write : Bool) (p : Info H) : Info H :=
  if write then { p with noFileWriteLock := p.noFileWriteLock + 1 }
  else { p with noFileReadLock := p.noFileReadLock + 1 }

/-- The counter that `zebra_unlock` decrements when it is positive. -/
def countOut (writeFlag : Bool) (p : Info H) : Info H :=
  if writeFlag then
    if p.noFileWriteLock > 0 then { p with noFileWriteLock := p.noFileWriteLock - 1 } else p
  else if p.noFileReadLock > 0 then { p with noFileReadLock := p.noFileReadLock - 1 } else p

def lastOut (p : Info H) : Bool :=
  p.noFileReadLock == 0 && p.noFileWriteLock == 0

/-- `F_UNLCK` by the last thread -/
def unixUnlock (p : Info H) : Info H :=
  if lastOut p then { p with fileLock := none } else p

/-- Where the thread of a handle is. -/
inductive Stage where
  /-- outside `zebra_lock_w` and `zebra_lock_r`, without the lock -/
  | idle
  /-- past `zebra_lock_rdwr_wlock` or `zebra_lock_rdwr_rlock` -/
  | entered
  /-- counted, and in `F_SETLKW` with `file_mutex` -/
  | waiting
  /-- with the lock, and still with `file_mutex` -/
  | locked
  /-- with the lock, until `zebra_unlock` -/
  | holding
  /-- in `zebra_unlock`, not counted any more, with `file_mutex` -/
  | unlocked
  /-- in `zebra_unlock`, before `zebra_lock_rdwr_wunlock` or `zebra_lock_rdwr_runlock` -/
  | leaving
  deriving DecidableEq

/-- A handle and its thread; `write` says which function it has called. -/
structure Thread where
  stage : Stage
  write : Bool
  writeFlag : Bool
  deriving DecidableEq

namespace Thread

/-- Whether the thread is between the two halves of the lock among threads. -/
def busy (t : Thread) : Bool :=
  t.stage ≠ .idle

def entered (write : Bool) (t : Thread) : Bool :=
  t.busy && t.write == write

/-- Whether the thread waits for the `fcntl` lock. -/
def waits (write : Bool) (t : Thread) : Bool :=
  t.stage = .waiting && t.write == write

def holds (write : Bool) (t : Thread) : Bool :=
  (t.stage = .locked || t.stage = .holding) && t.write == write

def counted (write : Bool) (t : Thread) : Bool :=
  t.holds write || t.waits write

def hasMutex (t : Thread) : Bool :=
  t.stage = .waiting || t.stage = .locked || t.stage = .unlocked

/-- Whether `write_flag` has been set for the lock that is held. -/
def flagged (t : Thread) : Bool :=
  t.stage = .holding || t.stage = .unlocked || t.stage = .leaving

end Thread

/-- The threads, the lock info of each process, and whether an `assert` has failed. -/
structure State (H P : Type) where
  thread : H → Thread
  info : P → Info H
  aborted : Bool

def start : State H P :=
  { thread := fun _ => { stage := .idle, write := false, writeFlag := false }
    info := fun _ => lockCreate
    aborted := false }

variable [DecidableEq H] [DecidableEq P] {proc : H → P}

/-- The thread of `h` goes on, and leaves the lock info of its process as `p`. -/
def State.move (proc : H → P) (s : State H P) (h : H) (t : Thread) (p : Info H) (ok : Bool) :
    State H P :=
  { thread := Function.update s.thread h t
    info := Function.update s.info (proc h) p
    aborted := s.aborted || !ok }

def enter (posixLocks write : Bool) (p : Info H) : Option (Info H) :=
  if posixLocks then if write then lockRdwrWlock p else lockRdwrRlock p else some p

def leave (posixLocks writeFlag : Bool) (p : Info H) : Info H :=
  if posixLocks then if writeFlag then lockRdwrWunlock p else lockRdwrRunlock p else p

/-- Whether the lock of another process lets the lock be taken. -/
def compatible (write : Bool) (other : Option Bool) : Bool :=
  match other with
  | none => true
  | some true => false
  | some false => !write

/-- One step of the thread of `h`, which does not block. -/
inductive Moves (posixLocks : Bool) (proc : H → P) (s : State H P) : State H P → Prop
  /-- `zebra_lock_w` or `zebra_lock_r` is called -/
  | enter (h : H) (write : Bool) (p : Info H) (here : (s.thread h).stage = .idle)
      (free : enter posixLocks write (s.info (proc h)) = some p) :
      Moves posixLocks proc s
        (s.move proc h { s.thread h with stage := .entered, write } p true)
  /-- `zebra_mutex_lock(&h->p->file_mutex)` and the counter, with the `assert` where no lock is
  needed -/
  | count (h : H) (here : (s.thread h).stage = .entered)
      (free : (s.info (proc h)).fileMutex = none) :
      Moves posixLocks proc s
        (s.move proc h
          { s.thread h with
            stage := if doLock (s.thread h).write (s.info (proc h)) then .waiting else .locked }
          { countIn (s.thread h).write (s.info (proc h)) with fileMutex := some h }
          (doLock (s.thread h).write (s.info (proc h)) || posixLocks))
  /-- `fcntl` gives the lock to the process, which no other process keeps from it -/
  | grant (h : H) (here : (s.thread h).stage = .waiting)
      (free : ∀ q, q ≠ proc h → compatible (s.thread h).write (s.info q).fileLock = true) :
      Moves posixLocks proc s
        (s.move proc h { s.thread h with stage := .locked }
          { s.info (proc h) with fileLock := some (s.thread h).write } true)
  /-- the mutex is given back and `write_flag` set -/
  | hold (h : H) (here : (s.thread h).stage = .locked) :
      Moves posixLocks proc s
        (s.move proc h
          { s.thread h with stage := .holding, writeFlag := (s.thread h).write }
          { s.info (proc h) with fileMutex := none } true)
  /-- `zebra_unlock` is called, and gets the mutex -/
  | unlock (h : H) (here : (s.thread h).stage = .holding)
      (free : (s.info (proc h)).fileMutex = none) :
      Moves posixLocks proc s
        (s.move proc h { s.thread h with stage := .unlocked }
          { unixUnlock (countOut (s.thread h).writeFlag (s.info (proc h))) with
            fileMutex := some h }
          (lastOut (countOut (s.thread h).writeFlag (s.info (proc h))) || posixLocks))
  | release (h : H) (here : (s.thread h).stage = .unlocked) :
      Moves posixLocks proc s
        (s.move proc h { s.thread h with stage := .leaving }
          { s.info (proc h) with fileMutex := none } true)
  | leave (h : H) (here : (s.thread h).stage = .leaving) :
      Moves posixLocks proc s
        (s.move proc h { s.thread h with stage := .idle }
          (leave posixLocks (s.thread h).writeFlag (s.info (proc h))) true)

/-- A run of threads that call the functions in matched pairs. -/
def Reaches (posixLocks : Bool) (proc : H → P) : State H P → State H P → Prop :=
  Relation.ReflTransGen (Moves posixLocks proc)

end Zebra.Flock
