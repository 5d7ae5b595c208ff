import Zebra.Util.Flock

/-!
# What the locks guarantee

The counters of a process are the numbers of its threads at the places they stand for, a writer is
alone in its process, and the `fcntl` lock of a process is the one its holders need.
-/

namespace Zebra.Flock

open Function Option State Thread

variable {H P : Type}

theorem enter_eq_some {write : Bool} {p q : Info H} (free : enter true write p = some q) :
    p.writersWriting = 0 ∧ (write = true → p.readersReading = 0) ∧
      q = { p with
        readersReading := p.readersReading + (!write).toNat
        writersWriting := p.writersWriting + write.toNat } := by
  cases write with
  | false =>
    simp only [enter, lockRdwrRlock, if_true, Bool.false_eq_true, if_false] at free
    split at free
    · cases free
    · rename_i none
      cases free
      exact ⟨not_not.mp none, fun writes => absurd writes Bool.false_ne_true, rfl⟩
  | true =>
    simp only [enter, lockRdwrWlock, if_true] at free
    split at free
    · cases free
    · rename_i none
      cases free
      rw [not_or, not_not, not_not] at none
      exact ⟨none.1, fun _ => none.2, rfl⟩

theorem leave_true (write : Bool) (p : Info H) :
    leave true write p = { p with
      readersReading := p.readersReading - (!write).toNat
      writersWriting := p.writersWriting - write.toNat } := by
  obtain ⟨readers, writers, _, _, _, _⟩ := p
  cases write <;> simp only [leave, lockRdwrRunlock, lockRdwrWunlock, if_true, Bool.false_eq_true,
    if_false, Bool.not_true, Bool.not_false, Bool.toNat_true, Bool.toNat_false, Nat.sub_zero]
  · split
    · rename_i zero
      rw [zero]
    · rfl
  · split
    · rename_i zero
      rw [zero]
    · rfl

theorem countIn_eq (write : Bool) (p : Info H) :
    countIn write p = { p with
      noFileReadLock := p.noFileReadLock + (!write).toNat
      noFileWriteLock := p.noFileWriteLock + write.toNat } := by
  cases write <;> rfl

theorem countOut_eq (write : Bool) (p : Info H) :
    countOut write p = { p with
      noFileReadLock := p.noFileReadLock - (!write).toNat
      noFileWriteLock := p.noFileWriteLock - write.toNat } := by
  obtain ⟨_, _, readers, writers, _, _⟩ := p
  cases write <;> simp only [countOut, if_true, Bool.false_eq_true, if_false, Bool.not_true,
    Bool.not_false, Bool.toNat_true, Bool.toNat_false, Nat.sub_zero]
  · split
    · rfl
    · rename_i zero
      rw [Nat.eq_zero_of_not_pos zero]
  · split
    · rfl
    · rename_i zero
      rw [Nat.eq_zero_of_not_pos zero]

variable [Fintype H] [DecidableEq P] {proc : H → P} {s : State H P}

/-- The number of threads of a process of which `f` is true. -/
def State.number (proc : H → P) (s : State H P) (p : P) (f : Thread → Bool) : Nat :=
  tally fun h => decide (proc h = p) && f (s.thread h)

variable {f : Thread → Bool}

theorem State.number_eq_zero {p : P} :
    s.number proc p f = 0 ↔ ∀ k, proc k = p → f (s.thread k) = false := by
  rw [number, tally_eq_zero]
  apply forall_congr'
  intro k
  by_cases here : proc k = p
  · simp [here]
  · simp [here]

theorem State.number_pos {p : P} (pos : s.number proc p f ≠ 0) :
    ∃ k, proc k = p ∧ f (s.thread k) = true := by
  obtain ⟨k, both⟩ := tally_pos.mp pos
  rw [Bool.and_eq_true, decide_eq_true_iff] at both
  exact ⟨k, both⟩

/-- A counter of a process counts the threads of which `f` is true. -/
def Counts (proc : H → P) (s : State H P) (c : Info H → Nat) (f : Thread → Bool) : Prop :=
  ∀ p, c (s.info p) = s.number proc p f

theorem Counts.pos {c : Info H → Nat} {h : H} (counts : Counts proc s c f)
    (here : f (s.thread h) = true) : 0 < c (s.info (proc h)) := by
  rw [counts (proc h)]
  apply Nat.pos_of_ne_zero
  intro zero
  have not_here := number_eq_zero.mp zero h rfl
  rw [here] at not_here
  cases not_here

variable [DecidableEq H] {h k : H} {t : Thread} {i : Info H} {ok : Bool}

omit [Fintype H] in
@[simp]
theorem State.thread_move_self : (s.move proc h t i ok).thread h = t := by
  simp only [move, update_self]

omit [Fintype H] in
theorem State.thread_move_ne (ne : k ≠ h) : (s.move proc h t i ok).thread k = s.thread k := by
  simp only [move, update_of_ne ne]

omit [Fintype H] in
@[simp]
theorem State.info_move_self : (s.move proc h t i ok).info (proc h) = i := by
  simp only [move, update_self]

omit [Fintype H] in
theorem State.info_move_ne {p : P} (ne : p ≠ proc h) :
    (s.move proc h t i ok).info p = s.info p := by
  simp only [move, update_of_ne ne]

theorem Counts.move {c : Info H → Nat} (counts : Counts proc s c f)
    (change : c i + (f (s.thread h)).toNat = c (s.info (proc h)) + (f t).toNat) :
    Counts proc (s.move proc h t i ok) c f := by
  intro p
  by_cases here : p = proc h
  · subst here
    have before := counts (proc h)
    have after := tally_change (f := fun k => decide (proc k = proc h) && f (s.thread k))
      (g := fun k => decide (proc k = proc h) && f ((s.move proc h t i ok).thread k)) h
      fun k ne => by simp only [thread_move_ne ne]
    simp only [decide_true, Bool.true_and, thread_move_self] at after
    rw [number] at before
    rw [info_move_self, number]
    omega
  · have same : (fun k => decide (proc k = p) && f ((s.move proc h t i ok).thread k)) =
        fun k => decide (proc k = p) && f (s.thread k) := by
      funext k
      by_cases ne : k = h
      · subst ne
        rw [decide_eq_false (Ne.symm here), Bool.false_and, Bool.false_and]
      · rw [thread_move_ne ne]
    rw [info_move_ne here, counts p, number, number, same]

omit [Fintype H]

variable {w : Bool}

theorem Thread.entered_of_counted (counted : t.counted w = true) : t.entered w = true := by
  obtain ⟨stage, write, flag⟩ := t
  cases stage <;> simp_all [Thread.counted, Thread.holds, Thread.waits, Thread.entered, Thread.busy]

theorem Thread.hasMutex_of_waits (waits : t.waits w = true) : t.hasMutex = true := by
  obtain ⟨stage, write, flag⟩ := t
  cases stage <;> simp_all [Thread.waits, hasMutex]

/-- While `f` is true of a thread, `g` is false of all others of its process. -/
def Excludes (proc : H → P) (s : State H P) (f g : Thread → Bool) : Prop :=
  ∀ h k, k ≠ h → proc k = proc h → f (s.thread h) = true → g (s.thread k) = false

theorem Excludes.move {g : Thread → Bool} (excludes : Excludes proc s f g)
    (own : f t = true → ∀ k, k ≠ h → proc k = proc h → g (s.thread k) = false)
    (others : g t = true → ∀ k, k ≠ h → proc k = proc h → f (s.thread k) = false) :
    Excludes proc (s.move proc h t i ok) f g := by
  intro x y ne same holds
  by_cases x_eq : x = h
  · subst x_eq
    rw [thread_move_self] at holds
    rw [thread_move_ne ne]
    exact own holds y ne same
  · rw [thread_move_ne x_eq] at holds
    by_cases y_eq : y = h
    · subst y_eq
      rw [thread_move_self]
      rw [← Bool.not_eq_true]
      intro moved
      have not_holds := others moved x x_eq same.symm
      rw [holds] at not_holds
      cases not_holds
    · rw [thread_move_ne y_eq]
      exact excludes x y ne same holds

/-- A thread that goes on to where less is true of it excludes what it did. -/
theorem Excludes.keep {g : Thread → Bool} (excludes : Excludes proc s f g)
    (own : f t = true → f (s.thread h) = true) (others : g t = true → g (s.thread h) = true) :
    Excludes proc (s.move proc h t i ok) f g := by
  apply excludes.move
  · intro moved k ne same
    exact excludes h k ne same (own moved)
  · intro moved k ne same
    rw [← Bool.not_eq_true]
    intro holds
    have not_here := excludes k h ne.symm same.symm holds
    rw [others moved] at not_here
    cases not_here

/-- `file_mutex` is with the thread that has locked it. -/
def Owned (proc : H → P) (s : State H P) : Prop :=
  ∀ p h, (s.info p).fileMutex = some h ↔ proc h = p ∧ (s.thread h).hasMutex = true

omit [DecidableEq H] [DecidableEq P] in
theorem Owned.free (owned : Owned proc s) (free : (s.info (proc h)).fileMutex = none)
    (same : proc k = proc h) : (s.thread k).hasMutex = false := by
  rw [← Bool.not_eq_true]
  intro has
  have taken := (owned (proc h) k).mpr ⟨same, has⟩
  rw [free] at taken
  cases taken

omit [DecidableEq H] [DecidableEq P] in
/-- No thread waits for the `fcntl` lock while the mutex is free. -/
theorem Owned.not_waits (owned : Owned proc s) (free : (s.info (proc h)).fileMutex = none)
    (same : proc k = proc h) (w : Bool) : (s.thread k).waits w = false := by
  rw [← Bool.not_eq_true]
  intro waits
  have no_mutex := owned.free free same
  rw [hasMutex_of_waits waits] at no_mutex
  cases no_mutex

theorem Owned.move (owned : Owned proc s)
    (change : ∀ k, i.fileMutex = some k ↔
      proc k = proc h ∧ ((s.move proc h t i ok).thread k).hasMutex = true) :
    Owned proc (s.move proc h t i ok) := by
  intro p k
  by_cases here : p = proc h
  · subst here
    rw [info_move_self]
    exact change k
  · rw [info_move_ne here, owned p k]
    apply and_congr_right
    intro same
    rw [thread_move_ne]
    rintro rfl
    exact here same.symm

theorem Owned.keep (owned : Owned proc s) (mutex : i.fileMutex = (s.info (proc h)).fileMutex)
    (has : t.hasMutex = (s.thread h).hasMutex) : Owned proc (s.move proc h t i ok) := by
  apply owned.move
  intro k
  rw [mutex, owned (proc h) k]
  by_cases eq : k = h
  · subst eq
    rw [thread_move_self, has]
  · rw [thread_move_ne eq]

theorem Owned.take (owned : Owned proc s) (free : (s.info (proc h)).fileMutex = none)
    (mutex : i.fileMutex = some h) (has : t.hasMutex = true) :
    Owned proc (s.move proc h t i ok) := by
  apply owned.move
  intro k
  rw [mutex]
  by_cases eq : k = h
  · subst eq
    rw [thread_move_self, has]
    exact iff_of_true rfl ⟨rfl, rfl⟩
  · rw [thread_move_ne eq]
    apply iff_of_false
    · intro taken
      exact eq (some.inj taken).symm
    · rintro ⟨same, other⟩
      rw [owned.free free same] at other
      cases other

theorem Owned.give (owned : Owned proc s) (had : (s.thread h).hasMutex = true)
    (mutex : i.fileMutex = none) (has : t.hasMutex = false) :
    Owned proc (s.move proc h t i ok) := by
  apply owned.move
  intro k
  rw [mutex]
  apply iff_of_false
  · intro taken
    cases taken
  · rintro ⟨same, other⟩
    by_cases eq : k = h
    · subst eq
      rw [thread_move_self, has] at other
      cases other
    · rw [thread_move_ne eq] at other
      have mine := (owned (proc h) h).mpr ⟨rfl, had⟩
      have its := (owned (proc h) k).mpr ⟨same, other⟩
      rw [mine] at its
      exact eq (some.inj its).symm

/-- The lock of a process is for writing or reading as its holders are. -/
def FileLocked (proc : H → P) (s : State H P) : Prop :=
  ∀ p w, (s.info p).fileLock = some w ↔ ∃ h, proc h = p ∧ (s.thread h).holds w = true

omit [DecidableEq P] in
/-- The thread `h` and the others of its process. -/
theorem FileLocked.split (locked : FileLocked proc s) (h : H) (w : Bool) :
    (s.info (proc h)).fileLock = some w ↔ (s.thread h).holds w = true ∨
      ∃ k, k ≠ h ∧ proc k = proc h ∧ (s.thread k).holds w = true := by
  rw [locked (proc h) w]
  constructor
  · rintro ⟨k, same, holds⟩
    by_cases eq : k = h
    · subst eq
      exact .inl holds
    · exact .inr ⟨k, eq, same, holds⟩
  · rintro (holds | ⟨k, _, same, holds⟩)
    · exact ⟨h, rfl, holds⟩
    · exact ⟨k, same, holds⟩

theorem FileLocked.move (locked : FileLocked proc s)
    (change : ∀ w, i.fileLock = some w ↔ t.holds w = true ∨
      ∃ k, k ≠ h ∧ proc k = proc h ∧ (s.thread k).holds w = true) :
    FileLocked proc (s.move proc h t i ok) := by
  intro p w
  by_cases here : p = proc h
  · subst here
    rw [info_move_self, change w]
    constructor
    · rintro (holds | ⟨k, ne, same, holds⟩)
      · exact ⟨h, rfl, by rwa [thread_move_self]⟩
      · exact ⟨k, same, by rwa [thread_move_ne ne]⟩
    · rintro ⟨k, same, holds⟩
      by_cases eq : k = h
      · subst eq
        rw [thread_move_self] at holds
        exact .inl holds
      · rw [thread_move_ne eq] at holds
        exact .inr ⟨k, eq, same, holds⟩
  · rw [info_move_ne here, locked p w]
    apply exists_congr
    intro k
    apply and_congr_right
    intro same
    rw [thread_move_ne]
    rintro rfl
    exact here same.symm

theorem FileLocked.keep (locked : FileLocked proc s)
    (lock : i.fileLock = (s.info (proc h)).fileLock)
    (holds : ∀ w, t.holds w = (s.thread h).holds w) : FileLocked proc (s.move proc h t i ok) := by
  apply locked.move
  intro w
  rw [lock, holds w, locked.split h w]

def Compatible (s : State H P) : Prop :=
  ∀ p q, p ≠ q → (s.info p).fileLock = some true → (s.info q).fileLock = none

theorem Compatible.move (compat : Compatible s)
    (own : i.fileLock = some true → ∀ q, q ≠ proc h → (s.info q).fileLock = none)
    (others : i.fileLock ≠ none → ∀ q, q ≠ proc h → (s.info q).fileLock ≠ some true) :
    Compatible (s.move proc h t i ok) := by
  intro p q ne writes
  by_cases p_eq : p = proc h
  · subst p_eq
    rw [info_move_self] at writes
    rw [info_move_ne (Ne.symm ne)]
    exact own writes q (Ne.symm ne)
  · rw [info_move_ne p_eq] at writes
    by_cases q_eq : q = proc h
    · subst q_eq
      rw [info_move_self]
      by_contra locked
      exact others locked p p_eq writes
    · rw [info_move_ne q_eq]
      exact compat p q ne writes

theorem Compatible.keep (compat : Compatible s)
    (lock : i.fileLock = none ∨ i.fileLock = (s.info (proc h)).fileLock) :
    Compatible (s.move proc h t i ok) := by
  apply compat.move
  · intro writes q ne
    rcases lock with none | same
    · rw [none] at writes
      cases writes
    · rw [same] at writes
      exact compat (proc h) q (Ne.symm ne) writes
  · intro locked q ne writes
    rcases lock with none | same
    · exact locked none
    · rw [same] at locked
      exact locked (compat q (proc h) ne writes)

variable [Fintype H]

/-- The lock among the threads of a process. -/
structure Among (proc : H → P) (s : State H P) : Prop where
  readers : Counts proc s Info.readersReading (Thread.entered false)
  writers : Counts proc s Info.writersWriting (Thread.entered true)
  apart : Excludes proc s (Thread.entered true) Thread.busy

/-- A step between the two halves of the lock among threads. -/
theorem Among.keep (among : Among proc s)
    (readers : i.readersReading = (s.info (proc h)).readersReading)
    (writers : i.writersWriting = (s.info (proc h)).writersWriting)
    (busy : t.busy = (s.thread h).busy) (write : t.write = (s.thread h).write) :
    Among proc (s.move proc h t i ok) where
  readers := among.readers.move (by rw [readers, Thread.entered, Thread.entered, busy, write])
  writers := among.writers.move (by rw [writers, Thread.entered, Thread.entered, busy, write])
  apart := among.apart.keep (by rw [Thread.entered, Thread.entered, busy, write]; exact id)
    (by rw [busy]; exact id)

/-- The counters for the `fcntl` lock; a thread waits for it on its own. -/
structure Counted (proc : H → P) (s : State H P) : Prop where
  readers : Counts proc s Info.noFileReadLock (Thread.counted false)
  writers : Counts proc s Info.noFileWriteLock (Thread.counted true)
  alone : ∀ w w', Excludes proc s (Thread.waits w) (Thread.counted w')

theorem Counted.keep (counted : Counted proc s)
    (readers : i.noFileReadLock = (s.info (proc h)).noFileReadLock)
    (writers : i.noFileWriteLock = (s.info (proc h)).noFileWriteLock)
    (same : ∀ w, t.counted w = (s.thread h).counted w)
    (waits : ∀ w, t.waits w = true → (s.thread h).waits w = true) :
    Counted proc (s.move proc h t i ok) where
  readers := counted.readers.move (by rw [readers, same])
  writers := counted.writers.move (by rw [writers, same])
  alone w w' := (counted.alone w w').keep (waits w) (by rw [same]; exact id)

/-- What holds between the steps of all threads. -/
structure Inv (proc : H → P) (s : State H P) : Prop where
  among : Among proc s
  counted : Counted proc s
  owned : Owned proc s
  flag : ∀ h, (s.thread h).flagged = true → (s.thread h).writeFlag = (s.thread h).write
  locked : FileLocked proc s
  compat : Compatible s
  running : s.aborted = false

omit [DecidableEq H] in
theorem Inv.start : Inv proc (start : State H P) where
  among :=
    { readers := fun _ => (number_eq_zero.mpr fun _ _ => rfl).symm
      writers := fun _ => (number_eq_zero.mpr fun _ _ => rfl).symm
      apart := fun _ _ _ _ _ => rfl }
  counted :=
    { readers := fun _ => (number_eq_zero.mpr fun _ _ => rfl).symm
      writers := fun _ => (number_eq_zero.mpr fun _ _ => rfl).symm
      alone := fun _ _ _ _ _ _ _ => rfl }
  owned p h := by simp [Flock.start, lockCreate, hasMutex]
  flag _ _ := rfl
  locked p w := by simp [Flock.start, lockCreate, Thread.holds]
  compat _ _ _ _ := rfl
  running := rfl

omit [Fintype H] in
theorem flag_move (flag : ∀ h, (s.thread h).flagged = true → (s.thread h).writeFlag =
    (s.thread h).write) (own : t.flagged = true → t.writeFlag = t.write) :
    ∀ k, ((s.move proc h t i ok).thread k).flagged = true →
      ((s.move proc h t i ok).thread k).writeFlag = ((s.move proc h t i ok).thread k).write := by
  intro k
  by_cases eq : k = h
  · subst eq
    rw [thread_move_self]
    exact own
  · rw [thread_move_ne eq]
    exact flag k

attribute [local simp] Thread.busy Thread.entered Thread.waits Thread.holds Thread.counted
  hasMutex flagged

theorem Inv.enter (inv : Inv proc s) {write : Bool} (here : (s.thread h).stage = .idle)
    (free : enter true write (s.info (proc h)) = some i) :
    Inv proc (s.move proc h { s.thread h with stage := .entered, write } i true) := by
  obtain ⟨no_writers, no_readers, rfl⟩ := enter_eq_some free
  constructor
  case among =>
    have none_writes : ∀ k, proc k = proc h → (s.thread k).entered true = false :=
      number_eq_zero.mp ((inv.among.writers (proc h)).symm.trans no_writers)
    constructor
    · apply inv.among.readers.move
      cases write <;> simp [here]
    · apply inv.among.writers.move
      cases write <;> simp [here]
    · apply inv.among.apart.move
      · -- a writer enters where there are neither readers nor writers
        intro enters k _ same
        have write_true : write = true := by simpa using enters
        have none_reads : ∀ k, proc k = proc h → (s.thread k).entered false = false :=
          number_eq_zero.mp ((inv.among.readers (proc h)).symm.trans (no_readers write_true))
        have reads := none_reads k same
        have writes := none_writes k same
        rw [Thread.entered] at reads writes
        cases kind : (s.thread k).write with
        | false => simpa [kind] using reads
        | true => simpa [kind] using writes
      · intro _ k _ same
        exact none_writes k same
  case counted => apply inv.counted.keep <;> simp [here]
  case owned =>
    apply inv.owned.keep
    · rfl
    · simp [here]
  case flag =>
    apply flag_move inv.flag
    intro flagged
    simp at flagged
  case locked =>
    apply inv.locked.keep
    · rfl
    · intro w
      simp [here]
  case compat => exact inv.compat.keep (.inr rfl)
  case running => simp [move, inv.running]

omit [DecidableEq H] in
/-- A thread that needs the `fcntl` lock is the first of its process. -/
theorem Inv.first (inv : Inv proc s) (here : (s.thread h).stage = .entered)
    (first : doLock (s.thread h).write (s.info (proc h)) = true) (ne : k ≠ h)
    (same : proc k = proc h) (w : Bool) : (s.thread k).counted w = false := by
  rw [← Bool.not_eq_true]
  intro counted
  cases write : (s.thread h).write with
  | true =>
    have idle := inv.among.apart h k ne same (by simp [here, write])
    have entered := entered_of_counted counted
    rw [Thread.entered, idle] at entered
    cases entered
  | false =>
    simp only [doLock, write, Bool.false_eq_true, if_false, Bool.and_eq_true, beq_iff_eq] at first
    cases w with
    | false =>
      have none :=
        number_eq_zero.mp ((inv.counted.readers (proc h)).symm.trans first.1) k same
      rw [counted] at none
      cases none
    | true =>
      have none :=
        number_eq_zero.mp ((inv.counted.writers (proc h)).symm.trans first.2) k same
      rw [counted] at none
      cases none

omit [DecidableEq H] in
/-- A thread that does not need the `fcntl` lock reads, and the process has the lock for others
that read. -/
theorem Inv.join (inv : Inv proc s) (here : (s.thread h).stage = .entered)
    (free : (s.info (proc h)).fileMutex = none)
    (joins : doLock (s.thread h).write (s.info (proc h)) = false) :
    (s.thread h).write = false ∧ (s.info (proc h)).fileLock = some false := by
  have no_writer : (s.info (proc h)).noFileWriteLock = 0 := by
    by_contra some_writer
    rw [inv.counted.writers (proc h)] at some_writer
    obtain ⟨k, same, counted⟩ := number_pos some_writer
    have ne : h ≠ k := by
      rintro rfl
      simp [here] at counted
    have idle := inv.among.apart k h ne same.symm (entered_of_counted counted)
    simp [here] at idle
  cases write : (s.thread h).write with
  | true => simp [doLock, write, no_writer] at joins
  | false =>
    refine ⟨rfl, ?_⟩
    have some_reader : (s.info (proc h)).noFileReadLock ≠ 0 := by
      simpa [doLock, write, no_writer] using joins
    rw [inv.counted.readers (proc h)] at some_reader
    obtain ⟨k, same, counted⟩ := number_pos some_reader
    rw [inv.locked]
    refine ⟨k, same, ?_⟩
    rwa [Thread.counted, inv.owned.not_waits free same, Bool.or_false] at counted

theorem Inv.count (inv : Inv proc s) (here : (s.thread h).stage = .entered)
    (free : (s.info (proc h)).fileMutex = none) :
    Inv proc (s.move proc h
      { s.thread h with
        stage := if doLock (s.thread h).write (s.info (proc h)) then .waiting else .locked }
      { countIn (s.thread h).write (s.info (proc h)) with fileMutex := some h }
      (doLock (s.thread h).write (s.info (proc h)) || true)) := by
  rw [countIn_eq]
  constructor
  case among =>
    apply inv.among.keep <;> cases doLock (s.thread h).write (s.info (proc h)) <;> simp [here]
  case counted =>
    constructor
    · apply inv.counted.readers.move
      cases doLock (s.thread h).write (s.info (proc h)) <;> simp [here]
    · apply inv.counted.writers.move
      cases doLock (s.thread h).write (s.info (proc h)) <;> simp [here]
    · intro w w'
      apply (inv.counted.alone w w').move
      · intro waits k ne same
        cases first : doLock (s.thread h).write (s.info (proc h)) with
        | true => exact inv.first here first ne same w'
        | false => simp [first] at waits
      · intro _ k _ same
        exact inv.owned.not_waits free same w
  case owned =>
    apply inv.owned.take free
    · rfl
    · cases doLock (s.thread h).write (s.info (proc h)) <;> simp
  case flag =>
    apply flag_move inv.flag
    cases doLock (s.thread h).write (s.info (proc h)) <;> simp
  case locked =>
    apply inv.locked.move
    intro w
    cases first : doLock (s.thread h).write (s.info (proc h)) with
    | true =>
      rw [inv.locked.split h w]
      simp [here]
    | false =>
      obtain ⟨reads, lock⟩ := inv.join here free first
      have split := inv.locked.split h w
      rw [lock] at split ⊢
      simp only [reads, Thread.holds, here] at split ⊢
      cases w
      · simp
      · simpa using split
  case compat => exact inv.compat.keep (.inr rfl)
  case running => simp [move, inv.running]

theorem Inv.grant (inv : Inv proc s) (here : (s.thread h).stage = .waiting)
    (free : ∀ q, q ≠ proc h → compatible (s.thread h).write (s.info q).fileLock = true) :
    Inv proc (s.move proc h { s.thread h with stage := .locked }
      { s.info (proc h) with fileLock := some (s.thread h).write } true) := by
  constructor
  case among => apply inv.among.keep <;> simp [here]
  case counted => apply inv.counted.keep <;> simp [here]
  case owned =>
    apply inv.owned.keep
    · rfl
    · simp [here]
  case flag =>
    apply flag_move inv.flag
    simp
  case locked =>
    apply inv.locked.move
    intro w
    have no_other : ¬ ∃ k, k ≠ h ∧ proc k = proc h ∧ (s.thread k).holds w = true := by
      rintro ⟨k, ne, same, holds⟩
      have none := inv.counted.alone (s.thread h).write w h k ne same (by simp [here])
      rw [Thread.counted, holds] at none
      cases none
    rw [or_iff_left no_other]
    simp
  case compat =>
    apply inv.compat.move
    · intro writes q ne
      have compatible := free q ne
      rw [some.inj writes] at compatible
      cases lock : (s.info q).fileLock with
      | none => rfl
      | some w => cases w <;> simp [Flock.compatible, lock] at compatible
    · intro _ q ne writes
      have compatible := free q ne
      simp [Flock.compatible, writes] at compatible
  case running => simp [move, inv.running]

theorem Inv.hold (inv : Inv proc s) (here : (s.thread h).stage = .locked) :
    Inv proc (s.move proc h
      { s.thread h with stage := .holding, writeFlag := (s.thread h).write }
      { s.info (proc h) with fileMutex := none } true) := by
  constructor
  case among => apply inv.among.keep <;> simp [here]
  case counted => apply inv.counted.keep <;> simp [here]
  case owned => apply inv.owned.give <;> simp [here]
  case flag =>
    apply flag_move inv.flag
    simp
  case locked =>
    apply inv.locked.keep
    · rfl
    · simp [here]
  case compat => exact inv.compat.keep (.inr rfl)
  case running => simp [move, inv.running]

theorem Inv.uncounted (inv : Inv proc s) (here : (s.thread h).stage = .holding)
    (readers : i.noFileReadLock = (countOut (s.thread h).write (s.info (proc h))).noFileReadLock)
    (writers : i.noFileWriteLock = (countOut (s.thread h).write (s.info (proc h))).noFileWriteLock)
    (gone : ∀ w, t.counted w = false) : Counted proc (s.move proc h t i ok) := by
  rw [countOut_eq] at readers writers
  constructor
  · apply inv.counted.readers.move
    rw [readers, gone false]
    cases write : (s.thread h).write with
    | false =>
      have pos := inv.counted.readers.pos (h := h) (by simp [here, write])
      simp [here, write]
      omega
    | true => simp [here, write]
  · apply inv.counted.writers.move
    rw [writers, gone true]
    cases write : (s.thread h).write with
    | false => simp [here, write]
    | true =>
      have pos := inv.counted.writers.pos (h := h) (by simp [here, write])
      simp [here, write]
      omega
  · intro w w'
    apply (inv.counted.alone w w').keep
    · intro waits
      have counted := gone w
      rw [Thread.counted, waits, Bool.or_true] at counted
      cases counted
    · rw [gone w']
      exact fun counted => (Bool.false_ne_true counted).elim

/-- The thread that gives the `fcntl` lock back is the last one of its process. -/
theorem Inv.last (inv : Inv proc s) (here : (s.thread h).stage = .holding) :
    lastOut (countOut (s.thread h).write (s.info (proc h))) = true ↔
      ∀ k w, k ≠ h → proc k = proc h → (s.thread k).counted w = false := by
  have left : Counted proc (s.move proc h { s.thread h with stage := .unlocked }
      (countOut (s.thread h).write (s.info (proc h))) true) :=
    inv.uncounted here rfl rfl (by simp)
  obtain ⟨readers, writers, _⟩ := left
  have number_readers := readers (proc h)
  have number_writers := writers (proc h)
  rw [info_move_self] at number_readers number_writers
  rw [lastOut, Bool.and_eq_true, beq_iff_eq, beq_iff_eq, number_readers, number_writers,
    number_eq_zero, number_eq_zero]
  constructor
  · rintro ⟨no_reader, no_writer⟩ k w ne same
    have reader := no_reader k same
    have writer := no_writer k same
    rw [thread_move_ne ne] at reader writer
    cases w
    · exact reader
    · exact writer
  · intro none
    constructor
    · intro k same
      by_cases eq : k = h
      · subst eq
        simp
      · rw [thread_move_ne eq]
        exact none k false eq same
    · intro k same
      by_cases eq : k = h
      · subst eq
        simp
      · rw [thread_move_ne eq]
        exact none k true eq same

omit [DecidableEq H] in
/-- Threads of one process that have the lock both read or are one. -/
theorem Inv.alike (inv : Inv proc s) {w' : Bool} (ne : k ≠ h) (same : proc k = proc h)
    (here : (s.thread h).holds w = true) (there : (s.thread k).holds w' = true) :
    w = false ∧ w' = false := by
  have entered : ∀ {x : H} {w : Bool}, (s.thread x).holds w = true →
      (s.thread x).entered w = true := by
    intro x w holds
    apply entered_of_counted
    rw [Thread.counted, holds, Bool.true_or]
  have alone : ∀ {x y : H} {w : Bool}, y ≠ x → proc y = proc x →
      (s.thread x).holds true = true → (s.thread y).holds w = true → False := by
    intro x y w ne same writes holds
    have idle := inv.among.apart x y ne same (entered writes)
    have busy := entered holds
    rw [Thread.entered, idle] at busy
    cases busy
  cases w
  · cases w'
    · exact ⟨rfl, rfl⟩
    · exact (alone ne.symm same.symm there here).elim
  · exact (alone ne same here there).elim

theorem Inv.unlock (inv : Inv proc s) (here : (s.thread h).stage = .holding)
    (free : (s.info (proc h)).fileMutex = none) :
    Inv proc (s.move proc h { s.thread h with stage := .unlocked }
      { unixUnlock (countOut (s.thread h).writeFlag (s.info (proc h))) with fileMutex := some h }
      (lastOut (countOut (s.thread h).writeFlag (s.info (proc h))) || true)) := by
  have flag : (s.thread h).writeFlag = (s.thread h).write := inv.flag h (by simp [here])
  rw [flag]
  have kept : ∀ p : Info H, (unixUnlock p).readersReading = p.readersReading ∧
      (unixUnlock p).writersWriting = p.writersWriting ∧
      (unixUnlock p).noFileReadLock = p.noFileReadLock ∧
      (unixUnlock p).noFileWriteLock = p.noFileWriteLock := by
    intro p
    rw [unixUnlock]
    split <;> exact ⟨rfl, rfl, rfl, rfl⟩
  constructor
  case among =>
    apply inv.among.keep
    · exact (kept _).1.trans (by rw [countOut_eq])
    · exact (kept _).2.1.trans (by rw [countOut_eq])
    · simp [here]
    · rfl
  case counted =>
    apply inv.uncounted here
    · exact (kept _).2.2.1
    · exact (kept _).2.2.2
    · simp
  case owned =>
    apply inv.owned.take free
    · rfl
    · simp
  case flag =>
    apply flag_move inv.flag
    simp [flag]
  case locked =>
    apply inv.locked.move
    intro w
    rw [or_iff_right (by simp), unixUnlock]
    split
    · -- the lock is given back, and no thread has it
      rename_i last
      apply iff_of_false
      · intro locked
        cases locked
      · rintro ⟨k, ne, same, holds⟩
        have none := (inv.last here).mp last k w ne same
        rw [Thread.counted, holds] at none
        cases none
    · -- another thread has the lock, and wants the same
      rename_i others
      have lock : (countOut (s.thread h).write (s.info (proc h))).fileLock =
          (s.info (proc h)).fileLock := by
        rw [countOut_eq]
      rw [inv.last here] at others
      push Not at others
      obtain ⟨k, w', ne, same, counted⟩ := others
      have holds' : (s.thread k).holds w' = true := by
        rwa [Thread.counted, inv.owned.not_waits free same, Bool.or_false, ne_eq,
          Bool.not_eq_false] at counted
      show (countOut _ _).fileLock = some w ↔ _
      rw [lock, inv.locked.split h w, or_iff_right_iff_imp]
      intro holds
      obtain ⟨reads, reads'⟩ := inv.alike ne same holds holds'
      exact ⟨k, ne, same, by rwa [reads, ← reads']⟩
  case compat =>
    apply inv.compat.keep
    rw [unixUnlock, countOut_eq]
    split
    · exact .inl rfl
    · exact .inr rfl
  case running => simp [move, inv.running]

theorem Inv.release (inv : Inv proc s) (here : (s.thread h).stage = .unlocked) :
    Inv proc (s.move proc h { s.thread h with stage := .leaving }
      { s.info (proc h) with fileMutex := none } true) := by
  constructor
  case among => apply inv.among.keep <;> simp [here]
  case counted => apply inv.counted.keep <;> simp [here]
  case owned => apply inv.owned.give <;> simp [here]
  case flag =>
    apply flag_move inv.flag
    intro _
    exact inv.flag h (by simp [here])
  case locked =>
    apply inv.locked.keep
    · rfl
    · simp [here]
  case compat => exact inv.compat.keep (.inr rfl)
  case running => simp [move, inv.running]

theorem Inv.leave (inv : Inv proc s) (here : (s.thread h).stage = .leaving) :
    Inv proc (s.move proc h { s.thread h with stage := .idle }
      (leave true (s.thread h).writeFlag (s.info (proc h))) true) := by
  have flag : (s.thread h).writeFlag = (s.thread h).write := inv.flag h (by simp [here])
  rw [flag, leave_true]
  constructor
  case among =>
    constructor
    · apply inv.among.readers.move
      cases write : (s.thread h).write with
      | false =>
        have pos := inv.among.readers.pos (h := h) (by simp [here, write])
        simp [here, write]
        omega
      | true => simp [here, write]
    · apply inv.among.writers.move
      cases write : (s.thread h).write with
      | false => simp [here, write]
      | true =>
        have pos := inv.among.writers.pos (h := h) (by simp [here, write])
        simp [here, write]
        omega
    · apply inv.among.apart.keep <;> simp
  case counted => apply inv.counted.keep <;> simp [here]
  case owned =>
    apply inv.owned.keep
    · rfl
    · simp [here]
  case flag =>
    apply flag_move inv.flag
    simp
  case locked =>
    apply inv.locked.keep
    · rfl
    · simp [here]
  case compat => exact inv.compat.keep (.inr rfl)
  case running => simp [move, inv.running]

theorem Inv.step (inv : Inv proc s) {s' : State H P} (moves : Moves true proc s s') :
    Inv proc s' := by
  cases moves with
  | enter h write p here free => exact inv.enter here free
  | count h here free => exact inv.count here free
  | grant h here free => exact inv.grant here free
  | hold h here => exact inv.hold here
  | unlock h here free => exact inv.unlock here free
  | release h here => exact inv.release here
  | leave h here => exact inv.leave here

theorem Reaches.inv (reaches : Reaches true proc start s) : Inv proc s := by
  induction reaches with
  | refl => exact Inv.start
  | tail _ moves inv => exact inv.step moves

/-- What the locks promise at one moment. -/
structure Correct (proc : H → P) (s : State H P) : Prop where
  /-- A writer that has the lock is the only thread of all processes that has it. -/
  excludes : ∀ h k w, k ≠ h → (s.thread h).holds true = true → (s.thread k).holds w = false
  /-- The counters are the numbers of threads that have the lock, but for a thread that waits for
  the `fcntl` lock, which is counted already. -/
  fileReaders : ∀ p, (s.info p).noFileReadLock =
    s.number proc p (Thread.holds false) + s.number proc p (Thread.waits false)
  fileWriters : ∀ p, (s.info p).noFileWriteLock =
    s.number proc p (Thread.holds true) + s.number proc p (Thread.waits true)
  waiting : ∀ p, (s.info p).fileMutex = none → ∀ w, s.number proc p (Thread.waits w) = 0
  readers : ∀ p, (s.info p).readersReading = s.number proc p (Thread.entered false)
  writers : ∀ p, (s.info p).writersWriting = s.number proc p (Thread.entered true)
  /-- The process has the `fcntl` lock of each thread of it that has the lock, and no other. -/
  fileLock : ∀ p w, (s.info p).fileLock = some w ↔
    ∃ h, proc h = p ∧ (s.thread h).holds w = true
  asserts : s.aborted = false

omit [DecidableEq H] in
theorem Inv.excludes (inv : Inv proc s) (ne : k ≠ h)
    (writes : (s.thread h).holds true = true) : (s.thread k).holds w = false := by
  rw [← Bool.not_eq_true]
  intro holds
  by_cases same : proc k = proc h
  · cases (inv.alike ne same writes holds).1
  · have lock := (inv.locked (proc h) true).mpr ⟨h, rfl, writes⟩
    have none := inv.compat (proc h) (proc k) (Ne.symm same) lock
    rw [(inv.locked (proc k) w).mpr ⟨k, rfl, holds⟩] at none
    cases none

omit [DecidableEq H] in
theorem State.number_counted (p : P) (w : Bool) : s.number proc p (Thread.counted w) =
    s.number proc p (Thread.holds w) + s.number proc p (Thread.waits w) := by
  rw [number, number, number, ← tally_or]
  · apply congrArg tally
    funext k
    rw [Thread.counted, Bool.and_or_distrib_left]
  · intro k
    cases stage : (s.thread k).stage <;> simp [stage]

/-- In every run of any number of threads in any number of processes. -/
theorem locks_correct (reaches : Reaches true proc start s) : Correct proc s where
  excludes h k w ne writes := reaches.inv.excludes ne writes
  fileReaders p := (reaches.inv.counted.readers p).trans (State.number_counted p false)
  fileWriters p := (reaches.inv.counted.writers p).trans (State.number_counted p true)
  waiting p free w := by
    rw [State.number_eq_zero]
    rintro k rfl
    exact reaches.inv.owned.not_waits free rfl w
  readers := reaches.inv.among.readers
  writers := reaches.inv.among.writers
  fileLock := reaches.inv.locked
  asserts := reaches.inv.running

/-- Two threads of one process read together, while a writer of another process is about to be
counted. -/
theorem locks_correct_readers : ∃ s : State (Fin 3) Bool,
    Reaches true (fun h => decide (h = 2)) start s ∧
      (s.thread 0).holds false = true ∧ (s.thread 1).holds false = true ∧
        (s.thread 2).entered true = true ∧ Correct (fun h => decide (h = 2)) s := by
  have run : ∃ s : State (Fin 3) Bool, Reaches true (fun h => decide (h = 2)) start s ∧
      (s.thread 0).holds false = true ∧ (s.thread 1).holds false = true ∧
        (s.thread 2).entered true = true := by
    refine ⟨_, .tail (.tail (.tail (.tail (.tail (.tail (.tail .refl
      (.enter 0 false _ rfl rfl)) (.count 0 rfl rfl)) (.grant 0 rfl fun q _ => ?_)) (.hold 0 rfl))
      (.enter 1 false _ rfl rfl)) (.count 1 rfl rfl)) (.enter 2 true _ rfl rfl), rfl, rfl, rfl⟩
    cases q <;> rfl
  obtain ⟨s, reaches, first, second, writer⟩ := run
  exact ⟨s, reaches, first, second, writer, locks_correct reaches⟩

end Zebra.Flock
