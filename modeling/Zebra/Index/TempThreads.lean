import Zebra.Index.TempFiles

/-!
# Two threads write the same files

However the two threads take turns, they are never stuck, they come to an end, and the files are
those that one thread writes with a buffer of the same size.
-/

namespace Zebra.TempFile

open List KeyBlock Threads

section

variable {staticRankEnable : Bool}

/-- The files once the buffer handed over has been written. -/
def Threads.pending (p : Threads) : List (List Byte) :=
  if p.isSorting ∧ p.sorterAt = .idle then flushInt p.files p.threadEntries else p.files

/-- What one thread has done when the writing thread is at that place after the same calls. -/
def KeyBlock.ahead (p : KeyBlock) : MainAt → KeyBlock
  | .next => p
  | .write => if p.buffer.nearlyFull then p.flush else p
  | .wait => p.flush
  | .done => p.flush

theorem KeyBlock.ahead_next (p : KeyBlock) : p.ahead .next = p := rfl

theorem KeyBlock.ahead_room {p : KeyBlock} (fits : p.buffer.nearlyFull = false) :
    p.ahead .write = p := by
  rw [ahead, if_neg (Bool.eq_false_iff.mp fits)]

theorem KeyBlock.ahead_full {p : KeyBlock} (full : p.buffer.nearlyFull = true) :
    p.ahead .write = p.flush := by
  rw [ahead, if_pos full]

/-- Two threads are as far as one thread is after some of the calls. -/
structure Threads.Follows (staticRankEnable : Bool) (start : KeyBlock) (all : List Call)
    (p : Threads) (before : List Call) (one : KeyBlock) : Prop where
  calls : before ++ p.calls = all
  written : before.foldlM (KeyBlock.write staticRankEnable) start = some one
  buffer : p.buffer = (one.ahead p.mainAt).buffer
  files : p.pending = (one.ahead p.mainAt).files
  /-- The sorting thread works as long as `is_sorting` says so. -/
  sorting : p.sorterAt = .written → p.isSorting = true
  writing : p.mainAt = .write → p.calls ≠ []
  waiting : p.mainAt = .wait ∨ p.mainAt = .done → p.calls = []
  finished : p.mainAt = .done → p.isSorting = false

variable {start one : KeyBlock} {all before : List Call} {p p' : Threads}

theorem Threads.pending_of_free (free : p.isSorting = false) : p.pending = p.files := by
  rw [pending, if_neg]
  rw [free]
  exact fun both => nomatch both.1

theorem Threads.Follows.idle (follows : p.Follows staticRankEnable start all before one)
    (free : p.isSorting = false) : p.sorterAt = .idle := by
  cases at_sorter : p.sorterAt with
  | idle => rfl
  | written => exact nomatch free.symm.trans (follows.sorting at_sorter)

theorem Threads.Follows.step (follows : p.Follows staticRankEnable start all before one)
    (step : Threads.Step staticRankEnable p p') :
    ∃ before one, p'.Follows staticRankEnable start all before one := by
  have written := follows.written
  have buffer := follows.buffer
  have files := follows.files
  cases step with
  | room at_next more fits =>
    rw [at_next, ahead_next] at buffer files
    rw [buffer] at fits
    refine ⟨before, one, follows.calls, written, ?_, ?_, follows.sorting, fun _ => ?_, nofun,
      nofun⟩
    · rw [ahead_room fits]
      exact buffer
    · rw [ahead_room fits]
      exact files
    · rw [more]
      exact cons_ne_nil _ _
  | handOver at_next more full free =>
    have idle := follows.idle free
    rw [at_next, ahead_next] at buffer files
    rw [pending_of_free free] at files
    rw [buffer] at full
    refine ⟨before, one, follows.calls, written, ?_, ?_, fun _ => rfl, fun _ => ?_, nofun, nofun⟩
    · rw [ahead_full full, buffer]
      rfl
    · rw [ahead_full full, pending, if_pos ⟨rfl, idle⟩, files, buffer]
      rfl
    · rw [more]
      exact cons_ne_nil _ _
  | @write call calls pushed_buffer at_write more pushed =>
    rw [at_write] at buffer files
    rw [buffer] at pushed
    refine ⟨before ++ [call], { one.ahead .write with buffer := pushed_buffer }, ?_, ?_, rfl, files,
      follows.sorting, nofun, nofun, nofun⟩
    · rw [append_assoc, singleton_append, ← more]
      exact follows.calls
    · rw [foldlM_append, written, Option.bind_eq_bind, Option.bind_some, foldlM_cons]
      change ((one.ahead .write).buffer.push _).map _ >>= _ = _
      rw [pushed]
      rfl
  | finish at_next none_left free =>
    have idle := follows.idle free
    rw [at_next] at buffer files
    rw [pending_of_free free] at files
    refine ⟨before, one, follows.calls, written, ?_, ?_, fun _ => rfl, nofun, fun _ => none_left,
      nofun⟩
    · rw [buffer]
      rfl
    · rw [pending, if_pos ⟨rfl, idle⟩, files, buffer]
      rfl
  | finished at_wait free =>
    rw [at_wait] at buffer files
    exact ⟨before, one, follows.calls, written, buffer, files, follows.sorting, nofun,
      fun _ => follows.waiting (Or.inl at_wait), fun _ => free⟩
  | sort at_idle work =>
    refine ⟨before, one, follows.calls, written, buffer, ?_, fun _ => work, follows.writing,
      follows.waiting, follows.finished⟩
    rw [pending, if_pos ⟨work, at_idle⟩] at files
    rw [pending, if_neg (fun both => nomatch both.2)]
    exact files
  | sorted at_written =>
    refine ⟨before, one, follows.calls, written, buffer, ?_, nofun, follows.writing,
      follows.waiting, fun _ => rfl⟩
    rw [pending, at_written, if_neg (fun both => nomatch both.2)] at files
    rw [pending_of_free rfl]
    exact files

/-- A run of the two threads keeps up with one thread. -/
theorem Threads.Follows.run (follows : p.Follows staticRankEnable start all before one)
    (run : Relation.ReflTransGen (Threads.Step staticRankEnable) p p') :
    ∃ before one, p'.Follows staticRankEnable start all before one := by
  induction run with
  | refl => exact ⟨before, one, follows⟩
  | tail _ step ih =>
    obtain ⟨before, one, follows⟩ := ih
    exact follows.step step

/-- The two threads go on when one thread could write the next call. -/
theorem Threads.Follows.progress (follows : p.Follows staticRankEnable start all before one)
    (room : ∀ call ∈ all, ∃ next, one.write staticRankEnable call = some next) :
    p.mainAt = .done ∨ ∃ p', Threads.Step staticRankEnable p p' := by
  by_cases sorting : p.isSorting = true
  · refine .inr ?_
    cases at_sorter : p.sorterAt with
    | idle => exact ⟨_, .sort at_sorter sorting⟩
    | written => exact ⟨_, .sorted at_sorter⟩
  · have free : p.isSorting = false := Bool.eq_false_iff.mpr sorting
    cases at_main : p.mainAt with
    | next =>
      refine .inr ?_
      cases more : p.calls with
      | nil => exact ⟨_, .finish at_main more free⟩
      | cons call calls =>
        cases full : p.buffer.nearlyFull with
        | true => exact ⟨_, .handOver at_main more full free⟩
        | false => exact ⟨_, .room at_main more full⟩
    | write =>
      refine .inr ?_
      cases more : p.calls with
      | nil => exact absurd more (follows.writing at_main)
      | cons call calls =>
        have listed : call ∈ all := by
          rw [← follows.calls, more]
          exact mem_append_right _ mem_cons_self
        obtain ⟨next, written⟩ := room call listed
        obtain ⟨buffer, pushed, -⟩ := Option.map_eq_some_iff.mp written
        have same := follows.buffer
        rw [at_main] at same
        exact ⟨_, .write at_main more (same ▸ pushed)⟩
    | wait => exact .inr ⟨_, .finished at_main free⟩
    | done => exact .inl rfl

def MainAt.left : MainAt → Nat
  | .next => 4
  | .write => 1
  | .wait => 1
  | .done => 0

def Threads.left (p : Threads) : Nat :=
  4 * p.calls.length + p.mainAt.left +
    match p.sorterAt, p.isSorting with
    | .written, _ => 1
    | .idle, true => 2
    | .idle, false => 0

theorem Threads.Step.left_lt (step : Threads.Step staticRankEnable p p') : p'.left < p.left := by
  cases step with
  | room at_next more fits => simp [left, MainAt.left, at_next]
  | handOver at_next more full free =>
    cases at_sorter : p.sorterAt <;> simp [left, MainAt.left, at_next, free, at_sorter]
  | write at_write more pushed => simp [left, MainAt.left, at_write, more]; omega
  | finish at_next none_left free =>
    cases at_sorter : p.sorterAt <;> simp [left, MainAt.left, at_next, free, at_sorter]
  | finished at_wait free => simp [left, MainAt.left, at_wait]
  | sort at_idle work => simp [left, at_idle, work]
  | sorted at_written => simp [left, at_written]

end

section

/-- A call as the extraction of records makes it. -/
structure Call.Valid (call : Call) : Prop where
  nonzero : ∀ c ∈ call.str, c ≠ 0
  /-- They are cut to `IT_MAX_WORD` bytes. -/
  word : call.str.length ≤ itMaxWord
  /-- The ordinal is an `int`. -/
  ord : call.keyIn.headD 0 < 2 ^ 31
  keyIn : call.keyIn.Valid
  sysno : call.sysno < 2 ^ 63
  staticrank : call.staticrank < 2 ^ 63

instance (call : Call) : Decidable call.Valid :=
  decidable_of_iff
    ((∀ c ∈ call.str, c ≠ 0) ∧ call.str.length ≤ itMaxWord ∧ call.keyIn.headD 0 < 2 ^ 31 ∧
      call.keyIn.Valid ∧ call.sysno < 2 ^ 63 ∧ call.staticrank < 2 ^ 63)
    ⟨fun ⟨nonzero, word, ord, keyIn, sysno, staticrank⟩ =>
        ⟨nonzero, word, ord, keyIn, sysno, staticrank⟩,
      fun valid =>
        ⟨valid.nonzero, valid.word, valid.ord, valid.keyIn, valid.sysno, valid.staticrank⟩⟩

theorem keySUEncodeFrom_length (fuel ch : Nat) : (keySUEncodeFrom fuel ch).length ≤ fuel := by
  induction fuel generalizing ch with
  | zero => exact Nat.le_refl 0
  | succ fuel ih =>
    rw [keySUEncodeFrom]
    split
    · exact Nat.zero_le _
    · exact Nat.succ_le_succ (ih _)

theorem keySUEncodeFrom_nonzero (fuel ch : Nat) : ∀ c ∈ keySUEncodeFrom fuel ch, c ≠ 0 := by
  induction fuel generalizing ch with
  | zero => exact forall_mem_nil _
  | succ fuel ih =>
    rw [keySUEncodeFrom]
    split
    · exact forall_mem_nil _
    · refine forall_mem_cons.mpr ⟨?_, ih _⟩
      split
      · exact Nat.ne_of_gt (by omega)
      · exact Nat.ne_of_gt (by omega)

theorem Call.Valid.key {call : Call} (valid : call.Valid) (staticRankEnable : Bool) :
    (keyOut staticRankEnable call).Valid where
  pos := by
    rw [keyOut, length_append, length_cons]
    omega
  le_max := by
    have le_max := valid.keyIn.le_max
    have pos := valid.keyIn.pos
    rw [keyOut, length_append, length_cons, length_drop]
    rw [itKeyLevelMax] at le_max ⊢
    split
    · rw [length_singleton]
      omega
    · rw [length_nil]
      omega
  small := by
    have second : call.keyIn.getD 1 0 < 2 ^ 63 := by
      rw [getD_eq_getElem?_getD]
      cases found : call.keyIn[1]? with
      | none => exact Nat.two_pow_pos 63
      | some c => exact valid.keyIn.small c (List.mem_of_getElem? found)
    intro c mem
    rw [keyOut, mem_append, mem_cons] at mem
    rcases mem with rank | record | rest
    · split at rank
      · rw [mem_singleton.mp rank]
        exact valid.staticrank
      · cases rank
    · rw [record]
      split
      · exact second
      · exact valid.sysno
    · exact valid.keyIn.small c (mem_of_mem_drop rest)

theorem Call.Valid.entry {call : Call} (valid : call.Valid) (staticRankEnable : Bool) :
    (call.entry staticRankEnable).Valid where
  nonzero c mem := by
    rcases mem_append.mp mem with ord | word
    · exact keySUEncodeFrom_nonzero 6 _ c ord
    · exact valid.nonzero c word
  short := by
    have ord := keySUEncodeFrom_length 6 (call.keyIn.headD 0)
    have word := valid.word
    rw [itMaxWord] at word
    rw [Call.entry, length_append, keySUEncode, inpNameMax]
    omega
  key := valid.key staticRankEnable

theorem Call.Valid.size_le {call : Call} (valid : call.Valid) (staticRankEnable : Bool) :
    (call.entry staticRankEnable).size ≤ 568 := by
  have ord := keySUEncodeFrom_length 6 (call.keyIn.headD 0)
  have word := valid.word
  rw [itMaxWord] at word
  rw [Entry.size, Call.entry, length_append, keySUEncode, sizeofItKey]
  omega

/-- Each call's entry has room in a buffer for itself. -/
def Fits (staticRankEnable : Bool) (ptrTop : Nat) (calls : List Call) : Prop :=
  ∀ call ∈ calls, (call.entry staticRankEnable).size + sizeofPtr ≤ ptrTop * sizeofPtr

instance (staticRankEnable : Bool) (ptrTop : Nat) (calls : List Call) :
    Decidable (Fits staticRankEnable ptrTop calls) :=
  inferInstanceAs (Decidable (∀ call ∈ calls, _ ≤ _))

variable {staticRankEnable : Bool}

theorem KeyBlock.write_ptrTop {p p' : KeyBlock} {call : Call}
    (run : p.write staticRankEnable call = some p') : p'.buffer.ptrTop = p.buffer.ptrTop := by
  obtain ⟨buffer, pushed, rfl⟩ := Option.map_eq_some_iff.mp run
  refine (push_entries pushed).2.trans ?_
  split <;> rfl

theorem KeyBlock.writes_ptrTop {p p' : KeyBlock} {calls : List Call}
    (run : calls.foldlM (KeyBlock.write staticRankEnable) p = some p') :
    p'.buffer.ptrTop = p.buffer.ptrTop := by
  induction calls generalizing p with
  | nil =>
    cases run
    rfl
  | cons call calls ih =>
    rw [foldlM_cons] at run
    obtain ⟨p₁, one, run⟩ := Option.bind_eq_some_iff.mp run
    exact (ih run).trans (write_ptrTop one)

/-- A buffer that is not nearly full has room for any entry, and one that has just been flushed for
those that fit into it alone. -/
theorem KeyBlock.exists_write {call : Call} (valid : call.Valid) (p : KeyBlock) :
    (∃ p', p.write staticRankEnable call = some p') ↔
      (call.entry staticRankEnable).size + sizeofPtr ≤ p.buffer.ptrTop * sizeofPtr := by
  have small := valid.size_le staticRankEnable
  have room : (∃ p', p.write staticRankEnable call = some p') ↔
      ∃ buffer, (if p.buffer.nearlyFull then p.flush else p).buffer.push
        (call.entry staticRankEnable) = some buffer := by
    simp only [write, Option.map_eq_some_iff]
    constructor
    · rintro ⟨_, buffer, pushed, _⟩
      exact ⟨buffer, pushed⟩
    · rintro ⟨buffer, pushed⟩
      exact ⟨_, buffer, pushed, rfl⟩
  rw [room]
  by_cases full : p.buffer.nearlyFull = true
  · rw [if_pos full]
    simp only [Buffer.push, flush, Buffer.clear, length_nil, Nat.zero_add, Nat.one_mul]
    split
    · next fits => exact ⟨fun _ => fits, fun _ => ⟨_, rfl⟩⟩
    · next tight =>
        refine ⟨?_, fun fits => absurd fits tight⟩
        rintro ⟨p', flushed⟩
        cases flushed
  · rw [if_neg full]
    rw [Buffer.nearlyFull, decide_eq_true_iff, sizeofPtr] at full
    have fits : p.buffer.keyBufUsed + (call.entry staticRankEnable).size +
        (p.buffer.entries.length + 1) * sizeofPtr ≤ p.buffer.ptrTop * sizeofPtr := by
      rw [sizeofPtr]
      omega
    rw [Buffer.push, if_pos fits]
    refine ⟨fun _ => ?_, fun _ => ⟨_, rfl⟩⟩
    rw [sizeofPtr] at fits ⊢
    omega

theorem KeyBlock.exists_writes {calls : List Call} (valid : ∀ call ∈ calls, call.Valid)
    (p : KeyBlock) : (∃ p', calls.foldlM (KeyBlock.write staticRankEnable) p = some p') ↔
      Fits staticRankEnable p.buffer.ptrTop calls := by
  induction calls generalizing p with
  | nil => exact ⟨fun _ => forall_mem_nil _, fun _ => ⟨p, rfl⟩⟩
  | cons call calls ih =>
    have first := @exists_write staticRankEnable _ (valid call mem_cons_self) p
    have rest := fun p => ih (fun call mem => valid call (.tail _ mem)) p
    rw [Fits, forall_mem_cons, ← first]
    constructor
    · rintro ⟨p', run⟩
      rw [foldlM_cons] at run
      obtain ⟨p₁, one, run⟩ := Option.bind_eq_some_iff.mp run
      refine ⟨⟨p₁, one⟩, ?_⟩
      rw [← write_ptrTop one]
      exact (rest p₁).mp ⟨p', run⟩
    · rintro ⟨⟨p₁, one⟩, fits⟩
      rw [← write_ptrTop one] at fits
      obtain ⟨p', run⟩ := (rest p₁).mpr fits
      exact ⟨p', by rw [foldlM_cons, one]; exact run⟩

theorem KeyBlock.exists_run {calls : List Call} (valid : ∀ call ∈ calls, call.Valid)
    (p : KeyBlock) : (∃ p', KeyBlock.run staticRankEnable p calls = some p') ↔
      Fits staticRankEnable p.buffer.ptrTop calls := by
  rw [← exists_writes valid p]
  simp only [run, Option.map_eq_some_iff]
  exact ⟨fun ⟨_, p', writes, _⟩ => ⟨p', writes⟩, fun ⟨p', writes⟩ => ⟨_, p', writes, rfl⟩⟩

/-- Two threads that are never stuck come to an end. -/
theorem Threads.exists_done {start : Threads}
    (going : ∀ p, Relation.ReflTransGen (Threads.Step staticRankEnable) start p →
      p.mainAt = .done ∨ ∃ p', Threads.Step staticRankEnable p p') :
    ∃ p, Relation.ReflTransGen (Threads.Step staticRankEnable) start p ∧ p.mainAt = .done := by
  induction left : start.left using Nat.strong_induction_on generalizing start with
  | _ left ih =>
    rcases going start .refl with done | ⟨next, step⟩
    · exact ⟨start, .refl, done⟩
    · have fewer := step.left_lt
      obtain ⟨p, run, done⟩ := ih next.left (by omega) (fun p run => going p (run.head step)) rfl
      exact ⟨p, run.head step, done⟩

theorem Threads.start_follows (staticRankEnable : Bool) (mem : Nat) (calls : List Call) :
    (Threads.start mem calls).Follows staticRankEnable
      { buffer := create mem true, files := [] } calls []
      { buffer := create mem true, files := [] } :=
  ⟨rfl, rfl, rfl, rfl, nofun, nofun, (fun ends => ends.elim nofun nofun), nofun⟩

theorem Threads.Follows.files_done {start one : KeyBlock} {all before : List Call} {p : Threads}
    (follows : p.Follows staticRankEnable start all before one) (at_done : p.mainAt = .done) :
    ∃ q, KeyBlock.run staticRankEnable start all = some q ∧ p.files = q.files := by
  have all_made := follows.calls
  rw [follows.waiting (Or.inr at_done), append_nil] at all_made
  have files := follows.files
  rw [at_done, Threads.pending_of_free (follows.finished at_done)] at files
  refine ⟨one.flush, ?_, files⟩
  rw [KeyBlock.run, ← all_made, follows.written]
  rfl

def threeCalls : List Call :=
  [⟨7, [3, 0, 1, 2], true, [97, 98], 0⟩, ⟨7, [3, 0, 1, 9], true, [97], 0⟩,
    ⟨8, [3, 0, 1, 4], false, [97], 0⟩]

end

end Zebra.TempFile
