import Zebra.Isamb.Method
import Zebra.Isamb.Storage

/-!
# The two loops of `insert_leaf`

Whatever a descent takes from the stream, the leaf's new contents are its old ones with exactly
those operations applied, coded from a reset state, and at most a quarter block longer than a
block; and where they do not fit, a splitting point in the middle third was noted on the way.
-/

namespace Zebra.Isamb

open List Option

section

variable {Item : Type}

def Stream.all (stream : Stream Item) : List (Item × Nat) :=
  (stream.item, stream.mode) :: stream.rest

def Applied (ops : List (Item × Nat)) (old new : List Item) : Prop :=
  ∀ x, x ∈ new ↔ (x ∈ old ∧ (x, 0) ∉ ops) ∨ (x, 1) ∈ ops

theorem Applied.refl (old : List Item) : Applied [] old old := by
  intro x
  simp

theorem Applied.insert {ops : List (Item × Nat)} {old mid new : List Item} {x : Item}
    (applied : Applied ops old mid) (new_mem : ∀ y, y ∈ new ↔ y = x ∨ y ∈ mid) :
    Applied (ops ++ [(x, 1)]) old new := by
  intro y
  rw [new_mem, applied y]
  by_cases same : y = x
  · simp [same]
  · simp [same]

theorem Applied.delete {ops : List (Item × Nat)} {old mid new : List Item} {x : Item}
    (applied : Applied ops old mid) (fresh : (x, 1) ∉ ops)
    (new_mem : ∀ y, y ∈ new ↔ y ∈ mid ∧ y ≠ x) : Applied (ops ++ [(x, 0)]) old new := by
  intro y
  rw [new_mem, applied y]
  by_cases same : y = x
  · simp [same, fresh]
  · simp [same]

variable [LinearOrder Item]

/-- An item is below an upper bound, if there is one. -/
def Below (bound : Option Item) (x : Item) : Prop := ∀ u ∈ bound, x < u

/-- Operations as a stream yields them: items strictly increasing, each inserted or deleted. -/
structure ValidOps (Valid : Item → Prop) (ops : List (Item × Nat)) : Prop where
  sorted : ops.Pairwise fun first second => first.1 < second.1
  valid : ∀ op ∈ ops, Valid op.1
  mode : ∀ op ∈ ops, op.2 = 0 ∨ op.2 = 1

def Present (bound : Option Item) (ops : List (Item × Nat)) (items : List Item) : Prop :=
  ∀ x, (x, 0) ∈ ops → Below bound x → x ∈ items

theorem ValidOps.not_mem_of_append {Valid : Item → Prop} {done todo : List (Item × Nat)}
    {x : Item} {mode : Nat} (ops : ValidOps Valid (done ++ (x, mode) :: todo)) (other : Nat) :
    (x, other) ∉ done := by
  intro mem
  have sorted := (pairwise_append.mp ops.sorted).2.2 _ mem (x, mode) mem_cons_self
  exact lt_irrefl x sorted

theorem ValidOps.lt_of_append {Valid : Item → Prop} {done todo : List (Item × Nat)}
    (ops : ValidOps Valid (done ++ todo)) {first second : Item × Nat} (first_mem : first ∈ done)
    (second_mem : second ∈ todo) : first.1 < second.1 :=
  (pairwise_append.mp ops.sorted).2.2 first first_mem second second_mem

end

section

variable {Item Code : Type} [LinearOrder Item] {m : IsamcM Item Code} (law : LawfulIsamc m)

@[simp] theorem DstBuf.bytes_push (buf : DstBuf) (piece : List Byte) :
    (buf.push piece).bytes = buf.bytes ++ piece := by
  simp [DstBuf.bytes, DstBuf.push]

/-- `dst_buf` and its variables after writing `out`, with items cut off behind `cutAt`. -/
structure Buffered (quater cutAt : Nat) (out : List Item) (s : LeafState Item Code) : Prop where
  /-- The bytes are the code of `out`. -/
  bytes : s.buf.bytes = law.codes none out
  size : s.buf.size = (law.codes none out).length
  noItems : s.noItems = out.length
  /-- No item so far starts behind `cutAt`. -/
  uncut : s.cut = none → s.buf.size ≤ cutAt + law.codeMax
  cut : ∀ cut ∈ s.cut, ∃ front back, out = front ++ cut.item :: back ∧
    cut.half1 = (law.codes none front).length ∧
    cut.half2 = cut.half1 + (law.piece (lastItem none front) cut.item).length ∧
    cut.noItems1 = front.length ∧ 2 * quater < cut.half1 ∧ cut.half1 ≤ 3 * quater + law.codeMax

/-- The same with the coder behind the last item. -/
structure Written (quater cutAt : Nat) (out : List Item) (s : LeafState Item Code) : Prop
    extends Buffered law quater cutAt out s where
  code : s.c2 = law.state (lastItem none out)

variable {law} {quater cutAt : Nat} {out : List Item} {s : LeafState Item Code}

theorem Written.weaken (written : Written law quater (2 * quater) out s) :
    Written law quater (3 * quater) out s :=
  { written with uncut := fun uncut => (written.uncut uncut).trans (by omega) }

theorem Written.congr (written : Written law quater cutAt out s) {s' : LeafState Item Code}
    (buf : s'.buf = s.buf) (c2 : s'.c2 = s.c2) (cut : s'.cut = s.cut)
    (noItems : s'.noItems = s.noItems) : Written law quater cutAt out s' where
  bytes := buf ▸ written.bytes
  size := buf ▸ written.size
  code := c2 ▸ written.code
  noItems := noItems ▸ written.noItems
  uncut := by rw [cut, buf]; exact written.uncut
  cut := cut ▸ written.cut

theorem Written.put (written : Written law quater cutAt out s) {x : Item}
    (out_valid : ∀ y ∈ out, law.Valid y) (x_valid : law.Valid x)
    (cutAt_ge : 2 * quater ≤ cutAt) (cutAt_le : cutAt ≤ 3 * quater) :
    Written law quater cutAt (out ++ [x]) (s.put m cutAt x) ∧
      (s.put m cutAt x).buf.size =
        s.buf.size + (law.piece (lastItem none out) x).length := by
  have last_valid : ∀ y ∈ lastItem none out, law.Valid y :=
    fun y last => out_valid y (mem_of_lastItem last)
  have piece_le := law.piece_le last_valid x_valid
  have encode := law.encode_state last_valid x_valid
  have codes : law.codes none (out ++ [x]) =
      law.codes none out ++ law.piece (lastItem none out) x := by
    rw [law.codes_append]
    simp
  have size := written.size
  have noItems := written.noItems
  unfold LeafState.put
  rw [written.code, encode]
  refine ⟨⟨⟨?_, ?_, ?_, ?_, ?_⟩, ?_⟩, rfl⟩
  · simp [codes, written.bytes]
  · simp [codes, DstBuf.push, size]
  · simp [noItems]
  · intro uncut
    simp only [DstBuf.push] at uncut ⊢
    split at uncut
    · cases uncut
    · next not_cut =>
      have before := written.uncut uncut
      simp only [uncut, isNone_none, Bool.true_and, decide_eq_true_eq] at not_cut
      omega
  · intro cut cut_mem
    simp only at cut_mem
    split at cut_mem
    · next starts =>
      simp only [Bool.and_eq_true, isNone_iff_eq_none, decide_eq_true_eq] at starts
      have before := written.uncut starts.1
      obtain rfl : _ = cut := by simpa using cut_mem
      refine ⟨out, [], by simp, size, by simp [DstBuf.push], noItems, ?_, ?_⟩
      · simp only
        omega
      · simp only
        omega
    · obtain ⟨front, back, out_eq, rest⟩ := written.cut cut cut_mem
      exact ⟨front, back ++ [x], by simp [out_eq], rest⟩
  · simp [LawfulIsamc.state]

/-- The state of `insert_leaf` after the operations `done`, with the items `fs` of the leaf still
to be copied. -/
structure Filling (law : LawfulIsamc m) (quater : Nat) (old out fs : List Item)
    (done : List (Item × Nat)) (s : LeafState Item Code) : Prop
    extends Written law quater (2 * quater) out s where
  sorted : (out ++ fs).Pairwise (· < ·)
  valid : ∀ x ∈ out ++ fs, law.Valid x
  applied : Applied done old (out ++ fs)
  room : s.buf.size + (law.codes (lastItem none out) fs).length ≤
    (law.codes none old).length + s.inserted
  inserted_le : s.inserted ≤ law.codeMax * done.length
  dirty : 0 < s.inserted → s.dirty = true
  clean : s.dirty = false → out ++ fs = old

/-- What is left of the stream when the operations `todo` are not done yet. -/
inductive Pending (law : LawfulIsamc m) (quater : Nat) (bound : Option Item) (out : List Item)
    (done todo : List (Item × Nat)) (s : LeafState Item Code) : Prop
  | look (look : s.look = true) (more : s.more = true) (all : s.stream.all = todo)
      (room : s.inserted < quater) (above : ∀ x ∈ out, x < s.stream.item)
  | ended (look : s.look = false) (more : s.more = false) (all : todo = [])
      (room : s.inserted < quater)
  | beyond (look : s.look = false) (more : s.more = true) (all : s.stream.all = todo)
      (room : s.inserted < quater) (above : ¬Below bound s.stream.item)
  /-- A quarter of a block was inserted; the lookahead is inserted once more later. -/
  | full (look : s.look = false) (more : s.more = true) (x : Item)
      (last : done.getLast? = some (x, 1)) (all : s.stream.all = (x, 1) :: todo)
      (room : quater ≤ s.inserted) (room_le : s.inserted < quater + law.codeMax)

section

variable {bound : Option Item} {old fs : List Item} {done todo : List (Item × Nat)} {f x : Item}

variable {s' : LeafState Item Code}

theorem Filling.congr (filling : Filling law quater old out fs done s)
    (buf : s'.buf = s.buf) (c2 : s'.c2 = s.c2) (cut : s'.cut = s.cut)
    (noItems : s'.noItems = s.noItems) (inserted : s'.inserted = s.inserted)
    (dirty : s'.dirty = s.dirty) : Filling law quater old out fs done s' where
  toWritten := filling.toWritten.congr buf c2 cut noItems
  sorted := filling.sorted
  valid := filling.valid
  applied := filling.applied
  room := by rw [buf, inserted]; exact filling.room
  inserted_le := inserted ▸ filling.inserted_le
  dirty := by rw [inserted, dirty]; exact filling.dirty
  clean := dirty ▸ filling.clean

theorem Filling.next (filling : Filling law quater old out fs done s) :
    Filling law quater old out fs done s.next := by
  unfold LeafState.next
  split <;> exact filling.congr rfl rfl rfl rfl rfl rfl

theorem Filling.restrict (filling : Filling law quater old out fs done s) (bound : Option Item) :
    Filling law quater old out fs done (s.restrict m bound) := by
  unfold LeafState.restrict
  split
  · exact filling.congr rfl rfl rfl rfl rfl rfl
  · exact filling

theorem Filling.out_valid (filling : Filling law quater old out fs done s) :
    ∀ y ∈ out, law.Valid y :=
  fun y mem => filling.valid y (mem_append_left fs mem)

theorem Filling.copy (filling : Filling law quater old out (f :: fs) done s) :
    Filling law quater old (out ++ [f]) fs done (s.put m (2 * quater) f) := by
  have f_valid := filling.valid f (by simp)
  obtain ⟨written, size⟩ := filling.toWritten.put filling.out_valid f_valid le_rfl (by omega)
  have shift : out ++ [f] ++ fs = out ++ f :: fs := by simp
  refine ⟨written, shift ▸ filling.sorted, shift ▸ filling.valid, shift ▸ filling.applied, ?_,
    filling.inserted_le, filling.dirty, shift ▸ filling.clean⟩
  have room := filling.room
  rw [law.codes_cons, length_append] at room
  rw [size, lastItem_concat]
  exact (Nat.add_assoc ..).trans_le room

theorem Filling.touch (filling : Filling law quater old out fs done s) (mem : x ∈ out) :
    Filling law quater old out fs (done ++ [(x, 1)]) s := by
  refine { filling with
    applied := filling.applied.insert fun y => ?_
    inserted_le := ?_ }
  · constructor
    · exact .inr
    · rintro (rfl | other)
      · exact mem_append_left fs mem
      · exact other
  · rw [length_append]
    exact filling.inserted_le.trans (Nat.mul_le_mul_left _ (Nat.le_add_right _ _))

theorem Filling.drop (filling : Filling law quater old out (f :: fs) done s)
    (fresh : (f, 1) ∉ done) :
    Filling law quater old out fs (done ++ [(f, 0)]) { s with dirty := true } := by
  have sub : (out ++ fs).Sublist (out ++ f :: fs) :=
    (List.Sublist.refl out).append (sublist_cons_self f fs)
  have order := pairwise_append.mp filling.sorted
  have f_valid := filling.valid f (by simp)
  have before : ∀ y ∈ lastItem none out, law.Valid y ∧ y < f := fun y last =>
    ⟨filling.out_valid y (mem_of_lastItem last), order.2.2 y (mem_of_lastItem last) f (by simp)⟩
  have behind : ∀ z ∈ fs, law.Valid z ∧ f < z := fun z mem =>
    ⟨filling.valid z (by simp [mem]), (pairwise_cons.mp order.2.1).1 z mem⟩
  refine ⟨filling.toWritten.congr rfl rfl rfl rfl, filling.sorted.sublist sub,
    fun x mem => filling.valid x (sub.subset mem), filling.applied.delete fresh fun y => ?_, ?_,
    ?_, fun _ => rfl, nofun⟩
  · constructor
    · intro mem
      refine ⟨sub.subset mem, ?_⟩
      rintro rfl
      rcases mem_append.mp mem with mem | mem
      · exact lt_irrefl y (order.2.2 y mem y (by simp))
      · exact lt_irrefl y (behind y mem).2
    · rintro ⟨mem, differ⟩
      simpa [differ] using mem
  · exact (Nat.add_le_add_left (law.codes_skip before f_valid behind) _).trans filling.room
  · rw [length_append]
    exact filling.inserted_le.trans (Nat.mul_le_mul_left _ (Nat.le_add_right _ _))

theorem Filling.put_grows (filling : Filling law quater old out fs done s) (x_valid : law.Valid x) :
    s.buf.size < (s.put m (2 * quater) x).buf.size ∧
      (s.put m (2 * quater) x).buf.size ≤ s.buf.size + law.codeMax := by
  have last_valid : ∀ y ∈ lastItem none out, law.Valid y :=
    fun y last => filling.out_valid y (mem_of_lastItem last)
  have piece_le := law.piece_le last_valid x_valid
  have two_le := law.two_le_piece last_valid x_valid
  obtain ⟨-, size⟩ := filling.toWritten.put filling.out_valid x_valid le_rfl (by omega)
  omega

/-- A new item is inserted in front of what is left of the leaf. -/
theorem Filling.insert (filling : Filling law quater old out fs done s) (x_valid : law.Valid x)
    (above : ∀ y ∈ out, y < x) (below : ∀ y ∈ fs, x < y)
    (buf : s'.buf = (s.put m (2 * quater) x).buf) (c2 : s'.c2 = (s.put m (2 * quater) x).c2)
    (cut : s'.cut = (s.put m (2 * quater) x).cut)
    (noItems : s'.noItems = (s.put m (2 * quater) x).noItems)
    (inserted : s'.inserted = s.inserted + ((s.put m (2 * quater) x).buf.size - s.buf.size))
    (dirty : s'.dirty = true) : Filling law quater old (out ++ [x]) fs (done ++ [(x, 1)]) s' := by
  obtain ⟨written, size⟩ := filling.toWritten.put filling.out_valid x_valid le_rfl (by omega)
  have order := pairwise_append.mp filling.sorted
  have last_valid : ∀ y ∈ lastItem none out, law.Valid y ∧ y < x := fun y last =>
    ⟨filling.out_valid y (mem_of_lastItem last), above y (mem_of_lastItem last)⟩
  have piece_le := law.piece_le (fun y last => (last_valid y last).1) x_valid
  have grown : s'.inserted = s.inserted + (law.piece (lastItem none out) x).length := by
    rw [inserted, size]
    omega
  refine ⟨written.congr buf c2 cut noItems, ?_, ?_, filling.applied.insert fun y => ?_, ?_, ?_,
    fun _ => dirty, ?_⟩
  · rw [append_assoc, pairwise_append]
    refine ⟨order.1, pairwise_cons.mpr ⟨below, order.2.1⟩, ?_⟩
    intro y y_mem z z_mem
    rcases mem_cons.mp z_mem with rfl | z_mem
    · exact above y y_mem
    · exact order.2.2 y y_mem z z_mem
  · intro y mem
    have cases_mem : y = x ∨ y ∈ out ++ fs := by
      simp only [mem_append, mem_singleton] at mem ⊢
      tauto
    rcases cases_mem with rfl | mem
    · exact x_valid
    · exact filling.valid y mem
  · simp only [mem_append, mem_singleton]
    tauto
  · have shorter := law.codes_mono last_valid x_valid fun z mem =>
      ⟨filling.valid z (mem_append_right out mem), below z mem⟩
    have room := filling.room
    rw [buf, size, lastItem_concat]
    omega
  · have inserted_le := filling.inserted_le
    rw [length_append, length_singleton, Nat.mul_add_one]
    omega
  · rw [dirty]
    nofun

theorem Pending.next (more : s.more = true) (look : s.look = true) (room : s.inserted < quater)
    (above : ∀ y ∈ out, ∀ op ∈ s.stream.rest, y < op.1) :
    Pending law quater bound out done s.stream.rest s.next := by
  unfold LeafState.next Stream.read
  cases rest : s.stream.rest with
  | nil => exact .ended rfl rfl rfl room
  | cons op rest' =>
    refine .look look more rfl room fun y mem => ?_
    exact above y mem op (by simp [rest])

theorem beyond_eq_false (bound_valid : ∀ u ∈ bound, law.Valid u) (x_valid : law.Valid x) :
    beyond m bound x = false ↔ Below bound x := by
  cases bound with
  | none => simp [beyond, Below]
  | some u =>
    have sign := law.compare_pos u x (bound_valid u rfl) x_valid
    simp [beyond, Below, ← sign]

theorem Pending.restrict (pending : Pending law quater bound out done todo s)
    (bound_valid : ∀ u ∈ bound, law.Valid u) (valid : ∀ op ∈ todo, law.Valid op.1) :
    Pending law quater bound out done todo (s.restrict m bound) := by
  unfold LeafState.restrict
  cases pending with
  | look look more all room above =>
    have item_valid : law.Valid s.stream.item := valid (s.stream.item, s.stream.mode) (by
      rw [← all]
      exact mem_cons_self)
    have sign := beyond_eq_false bound_valid item_valid
    split
    · next gone =>
      refine .beyond rfl more all room fun below => ?_
      rw [sign.mpr below] at gone
      simp at gone
    · exact .look look more all room above
  | ended look more all room =>
    rw [look]
    exact .ended look more all room
  | beyond look more all room above =>
    rw [look]
    exact .beyond look more all room above
  | full look more x last all room room_le =>
    rw [look]
    exact .full look more x last all room room_le

/-- Copying an item of the leaf in front of the lookahead. -/
theorem Pending.copy (pending : Pending law quater bound out done todo s)
    (below : s.look = true → f < s.stream.item) (cutAt : Nat) :
    Pending law quater bound (out ++ [f]) done todo (s.put m cutAt f) := by
  cases pending with
  | look look more all room above =>
    refine .look look more all room fun y mem => ?_
    rcases mem_append.mp mem with mem | mem
    · exact above y mem
    · rw [mem_singleton.mp mem]
      exact below look
  | ended look more all room => exact .ended look more all room
  | beyond look more all room above => exact .beyond look more all room above
  | full look more x last all room room_le => exact .full look more x last all room room_le

def spare (quater : Nat) (s : LeafState Item Code) : Nat :=
  if s.look then quater - s.inserted else 0

omit [LinearOrder Item] in
theorem spare_next : spare quater s.next ≤ spare quater s := by
  unfold LeafState.next spare
  split
  · exact le_rfl
  · exact Nat.zero_le _

omit [LinearOrder Item] in
theorem spare_restrict (bound : Option Item) :
    spare quater (s.restrict m bound) ≤ spare quater s := by
  unfold LeafState.restrict
  split
  · exact Nat.zero_le _
  · exact le_rfl

theorem nextFileItem_piece (f_valid : law.Valid f) {g : Item} (g_valid : law.Valid g)
    (loop : Code → List Byte → Item → LeafState Item Code → Except Fault (LeafState Item Code))
    (src : List Byte) :
    nextFileItem m loop (law.after f) (law.piece (some f) g ++ src) s =
      loop (law.after g) src g s := by
  have f_valid' : ∀ y ∈ some f, law.Valid y := by simpa using f_valid
  have decoded : m.decode (law.after f) (law.piece (some f) g ++ src) =
      some (g, law.after g, src) := law.decode_piece f_valid' g_valid src
  have two_le := law.two_le_piece f_valid' g_valid
  have nonempty : law.piece (some f) g ++ src ≠ [] := by
    rw [← length_pos_iff, length_append]
    omega
  rw [nextFileItem, if_neg nonempty, decoded]

/-- The first loop copies the leaf and takes what fits of the stream. -/
theorem interleave_spec (bound_valid : ∀ u ∈ bound, law.Valid u) (fuel : Nat)
    (filling : Filling law quater old out (f :: fs) done s)
    (pending : Pending law quater bound out done todo s)
    (ops : ValidOps law.Valid (done ++ todo)) (present : Present bound (done ++ todo) old)
    (fs_below : ∀ y ∈ f :: fs, Below bound y) (reach : ∀ op ∈ done, Below bound op.1)
    (quater_gt : law.codeMax < quater) (enough : fs.length + spare quater s < fuel) :
    ∃ s' out' done' todo',
      interleave m quater bound fuel (law.after f) (law.codes (some f) fs) f s = .ok s' ∧
        done' ++ todo' = done ++ todo ∧ Filling law quater old out' [] done' s' ∧
        Pending law quater bound out' done' todo' s' ∧ ∀ op ∈ done', Below bound op.1 := by
  induction fuel generalizing out f fs done todo s with
  | zero => exact absurd enough (Nat.not_lt_zero _)
  | succ fuel ih =>
    have f_valid := filling.valid f (by simp)
    have order := pairwise_append.mp filling.sorted
    have fs_valid : ∀ y ∈ fs, law.Valid y := fun y mem => filling.valid y (by simp [mem])
    -- the rest of the leaf, once its first item is dealt with
    have advance {s₁ : LeafState Item Code} {out₁ : List Item} {done₁ todo₁ : List (Item × Nat)}
        (filling₁ : Filling law quater old out₁ fs done₁ s₁)
        (pending₁ : Pending law quater bound out₁ done₁ todo₁ s₁)
        (same : done₁ ++ todo₁ = done ++ todo) (reach₁ : ∀ op ∈ done₁, Below bound op.1)
        (spare_le : spare quater s₁ ≤ spare quater s) :
        ∃ s' out' done' todo',
          nextFileItem m (interleave m quater bound fuel) (law.after f)
              (law.codes (some f) fs) s₁ = .ok s' ∧
            done' ++ todo' = done ++ todo ∧ Filling law quater old out' [] done' s' ∧
            Pending law quater bound out' done' todo' s' ∧ ∀ op ∈ done', Below bound op.1 := by
      cases fs with
      | nil => exact ⟨s₁, out₁, done₁, todo₁, rfl, same, filling₁, pending₁, reach₁⟩
      | cons g gs =>
        obtain ⟨s', out', done', todo', run, same', last⟩ :=
          ih filling₁ pending₁ (same ▸ ops) (same ▸ present)
            (fun y mem => fs_below y (mem_cons_of_mem f mem)) reach₁ (by
              rw [length_cons] at enough
              omega)
        refine ⟨s', out', done', todo', ?_, same'.trans same, last⟩
        rw [law.codes_cons, nextFileItem_piece f_valid (fs_valid g mem_cons_self)]
        exact run
    have copy (below : s.look = true → f < s.stream.item) :=
      advance filling.copy (pending.copy below (2 * quater)) rfl reach le_rfl
    have f_below := fs_below f mem_cons_self
    have reach_concat {y : Item} (y_below : Below bound y) (mode : Nat) :
        ∀ op ∈ done ++ [(y, mode)], Below bound op.1 := by
      intro op mem
      rcases mem_append.mp mem with mem | mem
      · exact reach op mem
      · rw [mem_singleton.mp mem]
        exact y_below
    cases pending with
    | ended look more all room => simpa [interleave, look] using copy (by simp [look])
    | beyond look more all room above => simpa [interleave, look] using copy (by simp [look])
    | full look more x last all room room_le =>
      simpa [interleave, look] using copy (by simp [look])
    | look look more all room above =>
      obtain ⟨x, mode, rest, stream⟩ : ∃ x mode rest, s.stream = ⟨x, mode, rest⟩ :=
        ⟨_, _, _, rfl⟩
      have todo_eq : todo = (x, mode) :: rest := by rw [← all, stream]; rfl
      simp only [stream] at above
      have stream_rest : s.stream.rest = rest := by rw [stream]
      subst todo_eq
      have x_valid : law.Valid x := ops.valid (x, mode) (by simp)
      have mode_eq : mode = 0 ∨ mode = 1 := ops.mode (x, mode) (by simp)
      have shift (op : Item × Nat) : done ++ [op] ++ rest = done ++ op :: rest := by simp
      have rest_above : ∀ op ∈ rest, x < op.1 := by
        have sorted := (pairwise_append.mp ops.sorted).2.1
        exact (pairwise_cons.mp sorted).1
      have negative := law.compare_neg f x f_valid x_valid
      have positive := law.compare_pos f x f_valid x_valid
      rcases lt_trichotomy f x with less | rfl | greater
      · have sign := negative.mpr less
        have not_pos : ¬0 < m.compareItem f x := by omega
        have not_zero : m.compareItem f x ≠ 0 := by omega
        simpa [interleave, look, stream, not_pos, not_zero] using
          copy (by simp [stream, less])
      · -- the lookahead is in the leaf
        have not_neg : ¬m.compareItem f f < 0 := mt negative.mp (lt_irrefl f)
        have not_pos : ¬0 < m.compareItem f f := mt positive.mp (lt_irrefl f)
        have zero : m.compareItem f f = 0 := by omega
        have out_above : ∀ y ∈ out, ∀ op ∈ rest, y < op.1 := fun y mem op op_mem =>
          (order.2.2 y mem f (by simp)).trans (rest_above op op_mem)
        rcases mode_eq with rfl | rfl
        · have pending₁ : Pending law quater bound out (done ++ [(f, 0)]) s.stream.rest
              { s with dirty := true }.next :=
            Pending.next (s := { s with dirty := true }) more look room
              (by simpa [stream] using out_above)
          rw [stream_rest] at pending₁
          have step := advance (filling.drop (ops.not_mem_of_append 1)).next pending₁
            (shift (f, 0)) (reach_concat f_below 0) spare_next
          simpa [interleave, look, stream, zero] using step
        · have copy_above : ∀ y ∈ out ++ [f], ∀ op ∈ s.stream.rest, y < op.1 := by
            rw [stream]
            intro y mem op op_mem
            rcases mem_append.mp mem with mem | mem
            · exact out_above y mem op op_mem
            · rw [mem_singleton.mp mem]
              exact rest_above op op_mem
          have pending₁ : Pending law quater bound (out ++ [f]) (done ++ [(f, 1)]) s.stream.rest
              (s.put m (2 * quater) f).next :=
            Pending.next (s := s.put m (2 * quater) f) more look room copy_above
          rw [stream_rest] at pending₁
          have step := advance (filling.copy.touch (by simp)).next pending₁ (shift (f, 1))
            (reach_concat f_below 1) spare_next
          simpa [interleave, look, stream, zero] using step
      · -- the lookahead is new
        have above_fs : ∀ y ∈ f :: fs, x < y := by
          intro y mem
          rcases mem_cons.mp mem with rfl | mem
          · exact greater
          · exact greater.trans ((pairwise_cons.mp order.2.1).1 y mem)
        have x_below : Below bound x := fun u u_mem => greater.trans (f_below u u_mem)
        have mode_one : mode = 1 := by
          refine mode_eq.resolve_left ?_
          rintro rfl
          have x_old := present x (by simp) x_below
          have x_mem := (filling.applied x).mpr (.inl ⟨x_old, ops.not_mem_of_append 0⟩)
          rcases mem_append.mp x_mem with mem | mem
          · exact lt_irrefl x (above x mem)
          · exact lt_irrefl x (above_fs x mem)
        subst mode_one
        have sign := positive.mpr greater
        obtain ⟨grows, grows_le⟩ := filling.put_grows x_valid
        have same : done ++ [(x, 1)] ++ rest = done ++ (x, 1) :: rest := shift (x, 1)
        have spare_eq : spare quater s = quater - s.inserted := by rw [spare, if_pos look]
        by_cases no_room : quater ≤ s.inserted + ((s.put m (2 * quater) x).buf.size - s.buf.size)
        · let s₁ : LeafState Item Code := { s.put m (2 * quater) x with
            inserted := s.inserted + ((s.put m (2 * quater) x).buf.size - s.buf.size)
            look := false }
          have filling₁ : Filling law quater old (out ++ [x]) (f :: fs) (done ++ [(x, 1)]) s₁ :=
            filling.insert x_valid above above_fs rfl rfl rfl rfl rfl
              (filling.dirty (by omega))
          have pending₁ : Pending law quater bound (out ++ [x]) (done ++ [(x, 1)]) rest s₁ := by
            refine .full rfl more x (by simp) ?_ no_room ?_
            · change s.stream.all = _
              rw [stream]
              rfl
            · change s.inserted + _ < _
              omega
          obtain ⟨s', out', done', todo', run, same', last⟩ := ih filling₁ pending₁
            (same ▸ ops) (same ▸ present) fs_below (reach_concat x_below 1) (by
              change fs.length + 0 < fuel
              omega)
          refine ⟨s', out', done', todo', ?_, same'.trans same, last⟩
          simpa [interleave, look, stream, sign, no_room] using run
        · let s₁ : LeafState Item Code := { s.put m (2 * quater) x with
            inserted := s.inserted + ((s.put m (2 * quater) x).buf.size - s.buf.size)
            dirty := true }
          have filling₁ : Filling law quater old (out ++ [x]) (f :: fs) (done ++ [(x, 1)]) s₁ :=
            filling.insert x_valid above above_fs rfl rfl rfl rfl rfl rfl
          have put_above : ∀ y ∈ out ++ [x], ∀ op ∈ s₁.stream.rest, y < op.1 := by
            change ∀ y ∈ out ++ [x], ∀ op ∈ s.stream.rest, y < op.1
            rw [stream]
            intro y mem op op_mem
            rcases mem_append.mp mem with mem | mem
            · exact (above y mem).trans (rest_above op op_mem)
            · rw [mem_singleton.mp mem]
              exact rest_above op op_mem
          have pending₁ : Pending law quater bound (out ++ [x]) (done ++ [(x, 1)]) s.stream.rest
              (s₁.next.restrict m bound) := by
            refine Pending.restrict (Pending.next (s := s₁) more look ?_ put_above)
              bound_valid ?_
            · exact Nat.lt_of_not_le no_room
            · rw [stream]
              exact fun op mem => ops.valid op (by simp [mem])
          rw [stream_rest] at pending₁
          have spare_le : spare quater (s₁.next.restrict m bound) ≤ spare quater s₁ :=
            (spare_restrict bound).trans spare_next
          have spare₁ : spare quater s₁ = quater - s₁.inserted := if_pos look
          have inserted₁ : s₁.inserted =
              s.inserted + ((s.put m (2 * quater) x).buf.size - s.buf.size) := rfl
          obtain ⟨s', out', done', todo', run, same', last⟩ := ih
            (filling₁.next.restrict bound) pending₁ (same ▸ ops) (same ▸ present) fs_below
            (reach_concat x_below 1) (by omega)
          refine ⟨s', out', done', todo', ?_, same'.trans same, last⟩
          simpa [interleave, look, stream, sign, no_room] using run

/-- The leaf's new contents `out`: the old ones with the operations `done` applied. -/
structure Filled (law : LawfulIsamc m) (quater : Nat) (old out : List Item)
    (done : List (Item × Nat)) (s : LeafState Item Code) : Prop
    extends Buffered law quater (3 * quater) out s where
  sorted : out.Pairwise (· < ·)
  valid : ∀ x ∈ out, law.Valid x
  applied : Applied done old out
  size_le : s.buf.size ≤ 5 * quater + law.codeMax
  clean : s.dirty = false → out = old

/-- What a descent hands back of the stream when the operations `todo` are not done yet. -/
inductive Remains (done todo : List (Item × Nat)) (stream : Stream Item) (more : Bool) : Prop
  | ended (more : more = false) (all : todo = [])
  | next (more : more = true) (all : stream.all = todo)
  /-- The lookahead was inserted as the last of several operations. -/
  | again (more : more = true) (x : Item) (last : done.getLast? = some (x, 1))
      (all : stream.all = (x, 1) :: todo) (several : 2 ≤ done.length)

theorem Filling.filled (filling : Filling law quater old out [] done s)
    (old_le : (law.codes none old).length ≤ 4 * quater)
      (inserted_le : s.inserted ≤ quater + law.codeMax) :
    Filled law quater old out done s where
  toBuffered := filling.toWritten.weaken.toBuffered
  sorted := by simpa using filling.sorted
  valid := by simpa using filling.valid
  applied := by simpa using filling.applied
  size_le := by
    have room := filling.room
    omega
  clean := by simpa using filling.clean

theorem Filled.put (filled : Filled law quater old out done s)
    (code : s.c2 = law.state (lastItem none out)) (x_valid : law.Valid x) (above : ∀ y ∈ out, y < x)
    (fits : (s.put m (3 * quater) x).buf.size ≤ 5 * quater)
    (buf : s'.buf = (s.put m (3 * quater) x).buf) (cut : s'.cut = (s.put m (3 * quater) x).cut)
    (noItems : s'.noItems = (s.put m (3 * quater) x).noItems) (dirty : s'.dirty = true) :
    Filled law quater old (out ++ [x]) (done ++ [(x, 1)]) s' := by
  obtain ⟨written, -⟩ := (Written.mk filled.toBuffered code).put filled.valid x_valid
    (by omega) le_rfl
  refine ⟨⟨buf ▸ written.bytes, buf ▸ written.size, noItems ▸ written.noItems,
    by rw [cut, buf]; exact written.uncut, cut ▸ written.cut⟩, ?_, ?_,
    filled.applied.insert fun y => ?_, by rw [buf]; omega, by rw [dirty]; nofun⟩
  · rw [pairwise_append]
    refine ⟨filled.sorted, pairwise_singleton _ x, ?_⟩
    intro y mem z z_mem
    rw [mem_singleton.mp z_mem]
    exact above y mem
  · intro y mem
    rcases mem_append.mp mem with mem | mem
    · exact filled.valid y mem
    · rw [mem_singleton.mp mem]
      exact x_valid
  · simp only [mem_append, mem_singleton]
    tauto

/-- An item that did not fit is taken back; a splitting point was found long before. -/
theorem Filled.takeBack (filled : Filled law quater old out done s)
    (code : s.c2 = law.state (lastItem none out)) (x_valid : law.Valid x)
    (quater_gt : law.codeMax < quater) (large : 5 * quater < (s.put m (3 * quater) x).buf.size)
    (stream : Stream Item) :
    4 * quater < s.buf.size ∧
      Filled law quater old out done
        { s.put m (3 * quater) x with buf := s.buf, noItems := s.noItems, stream } := by
  have last_valid : ∀ y ∈ lastItem none out, law.Valid y :=
    fun y last => filled.valid y (mem_of_lastItem last)
  have piece_le := law.piece_le last_valid x_valid
  obtain ⟨-, size⟩ := (Written.mk filled.toBuffered code).put filled.valid x_valid
    (by omega) le_rfl
  obtain ⟨cut, found⟩ : ∃ cut, s.cut = some cut := by
    refine ne_none_iff_exists'.mp fun uncut => ?_
    have before := filled.uncut uncut
    omega
  have kept : (s.put m (3 * quater) x).cut = some cut := by simp [LeafState.put, found]
  refine ⟨by omega, ⟨⟨filled.bytes, filled.size, filled.noItems, ?_, ?_⟩, filled.sorted,
    filled.valid, filled.applied, filled.size_le, filled.clean⟩⟩
  · intro uncut
    exact absurd (kept.symm.trans uncut) nofun
  · intro other mem
    exact filled.cut other (found.trans (kept.symm.trans mem))

variable {rest : List (Item × Nat)}

theorem append_head (bound_valid : ∀ u ∈ bound, law.Valid u) {mode : Nat}
    (filled : Filled law quater old out done s)
    (above : ∀ y ∈ out, y < x) (ops : ValidOps law.Valid (done ++ (x, mode) :: rest))
    (present : Present bound (done ++ (x, mode) :: rest) old) :
    (beyond m bound x = true ∧ ¬Below bound x) ∨
      (beyond m bound x = false ∧ Below bound x ∧ mode = 1) := by
  have x_valid : law.Valid x := ops.valid (x, mode) (by simp)
  have sign := beyond_eq_false bound_valid x_valid
  cases gone : beyond m bound x with
  | true =>
    refine .inl ⟨rfl, fun below => ?_⟩
    rw [sign.mpr below] at gone
    cases gone
  | false =>
    refine .inr ⟨rfl, sign.mp gone, (ops.mode (x, mode) (by simp)).resolve_left ?_⟩
    intro mode_zero
    obtain rfl : mode = 0 := mode_zero
    have x_old := present x (by simp) (sign.mp gone)
    have mem := (filled.applied x).mpr (.inl ⟨x_old, ops.not_mem_of_append 0⟩)
    exact lt_irrefl x (above x mem)

omit [LinearOrder Item] in
theorem append_fits {maxp : Nat} {y : Item} {y_mode : Nat}
    (gone : beyond m bound x = false) (fits : ¬maxp < (s.put m (3 * quater) x).buf.size) :
    append m quater maxp bound x 1 ((y, y_mode) :: rest) s =
      append m quater maxp bound y y_mode rest { s.put m (3 * quater) x with dirty := true } := by
  rw [append, if_neg (by simp [gone]), if_neg (by decide)]
  dsimp only
  rw [if_neg fits]

/-- The second loop takes items off the stream until the block is full. -/
theorem append_spec (bound_valid : ∀ u ∈ bound, law.Valid u) {mode : Nat}
    (filled : Filled law quater old out done s)
    (code : s.c2 = law.state (lastItem none out)) (more : s.more = true)
    (above : ∀ y ∈ out, y < x) (ops : ValidOps law.Valid (done ++ (x, mode) :: rest))
    (present : Present bound (done ++ (x, mode) :: rest) old)
    (reach : ∀ op ∈ done, Below bound op.1) (quater_gt : law.codeMax < quater) :
    ∃ s' out' done' todo',
      append m quater (5 * quater) bound x mode rest s = .ok s' ∧
        done' ++ todo' = done ++ (x, mode) :: rest ∧ Filled law quater old out' done' s' ∧
        Remains done' todo' s'.stream s'.more ∧ (∀ op ∈ done', Below bound op.1) ∧
        done.length ≤ done'.length ∧
        (Below bound x → s.buf.size ≤ 4 * quater → done.length < done'.length) := by
  have reach_concat {done : List (Item × Nat)} {x : Item}
      (reach : ∀ op ∈ done, Below bound op.1) (below : Below bound x) :
      ∀ op ∈ done ++ [(x, 1)], Below bound op.1 := by
    intro op mem
    rcases mem_append.mp mem with mem | mem
    · exact reach op mem
    · rw [mem_singleton.mp mem]
      exact below
  induction rest generalizing x mode s out done with
  | nil =>
    have x_valid : law.Valid x := ops.valid (x, mode) (by simp)
    rcases append_head bound_valid filled above ops present with
      ⟨gone, not_below⟩ | ⟨gone, below, rfl⟩
    · refine ⟨{ s with stream := ⟨x, mode, []⟩ }, out, done, _, by simp [append, gone], rfl,
        { filled with }, .next more rfl, reach, le_rfl, fun below _ => absurd below not_below⟩
    · by_cases large : 5 * quater < (s.put m (3 * quater) x).buf.size
      · obtain ⟨size_gt, back⟩ := filled.takeBack code x_valid quater_gt large ⟨x, 1, []⟩
        exact ⟨_, out, done, _, by simp [append, gone, large], rfl, back, .next more rfl, reach,
          le_rfl,
          fun _ size_le => by omega⟩
      · refine ⟨{ s.put m (3 * quater) x with
            stream := ⟨x, 1, []⟩, dirty := true, look := false, more := false },
          out ++ [x], done ++ [(x, 1)], [], by simp [append, gone, large], by simp,
          filled.put code x_valid above (by omega) rfl rfl rfl rfl, .ended rfl rfl,
          reach_concat reach below, by simp, by simp⟩
  | cons op rest ih =>
    obtain ⟨y, y_mode⟩ := op
    have x_valid : law.Valid x := ops.valid (x, mode) (by simp)
    rcases append_head bound_valid filled above ops present with
      ⟨gone, not_below⟩ | ⟨gone, below, rfl⟩
    · refine ⟨{ s with stream := ⟨x, mode, (y, y_mode) :: rest⟩ }, out, done,
        _, by simp [append, gone],
        rfl, { filled with }, .next more rfl, reach, le_rfl, fun below _ => absurd below not_below⟩
    · by_cases large : 5 * quater < (s.put m (3 * quater) x).buf.size
      · obtain ⟨size_gt, back⟩ :=
          filled.takeBack code x_valid quater_gt large ⟨x, 1, (y, y_mode) :: rest⟩
        exact ⟨_, out, done, _, by simp [append, gone, large], rfl, back, .next more rfl, reach,
          le_rfl,
          fun _ size_le => by omega⟩
      · have fits : (s.put m (3 * quater) x).buf.size ≤ 5 * quater := by omega
        let s₁ : LeafState Item Code := { s.put m (3 * quater) x with dirty := true }
        have filled₁ : Filled law quater old (out ++ [x]) (done ++ [(x, 1)]) s₁ :=
          filled.put code x_valid above fits rfl rfl rfl rfl
        have code₁ : s₁.c2 = law.state (lastItem none (out ++ [x])) :=
          ((Written.mk filled.toBuffered code).put filled.valid x_valid (by omega)
            le_rfl).1.code
        have shift : done ++ [(x, 1)] ++ (y, y_mode) :: rest =
            done ++ (x, 1) :: (y, y_mode) :: rest := by simp
        have sorted := (pairwise_append.mp ops.sorted).2.1
        have x_lt : x < y := (pairwise_cons.mp sorted).1 (y, y_mode) mem_cons_self
        have above₁ : ∀ z ∈ out ++ [x], z < y := by
          intro z mem
          rcases mem_append.mp mem with mem | mem
          · exact (above z mem).trans x_lt
          · rw [mem_singleton.mp mem]
            exact x_lt
        obtain ⟨s', out', done', todo', run, same, filled', remains, reach', longer, -⟩ :=
          ih filled₁ code₁ more above₁ (shift ▸ ops) (shift ▸ present)
            (reach_concat reach below)
        rw [length_append, length_singleton] at longer
        refine ⟨s', out', done', todo', ?_, same.trans shift, filled', remains, reach', by omega,
          fun _ _ => by omega⟩
        rw [append_fits gone large]
        exact run

theorem finish_spec (bound_valid : ∀ u ∈ bound, law.Valid u)
    (filling : Filling law quater old out [] done s)
    (pending : Pending law quater bound out done todo s)
    (old_le : (law.codes none old).length ≤ 4 * quater)
    (ops : ValidOps law.Valid (done ++ todo)) (present : Present bound (done ++ todo) old)
    (reach : ∀ op ∈ done, Below bound op.1)
    (first : ∀ op ∈ (done ++ todo).head?, Below bound op.1) (some_op : done ++ todo ≠ [])
    (quater_gt : law.codeMax < quater) :
    ∃ s' out' done' todo',
      (if s.look then
          append m quater (5 * quater) bound s.stream.item s.stream.mode s.stream.rest s
        else .ok s) = .ok s' ∧ done' ++ todo' = done ++ todo ∧ done' ≠ [] ∧
        Filled law quater old out' done' s' ∧ Remains done' todo' s'.stream s'.more ∧
        ∀ op ∈ done', Below bound op.1 := by
  have inserted_le := filling.inserted_le
  cases pending with
  | look look more all room above =>
    subst all
    have filled := filling.filled old_le (by omega)
    have size_le := filling.room
    obtain ⟨s', out', done', todo', run, same, filled', remains, reach', longer, taken⟩ :=
      append_spec bound_valid filled filling.code more above ops present reach quater_gt
    refine ⟨s', out', done', todo', by rw [if_pos look, run], same, ?_, filled', remains,
      reach'⟩
    rintro rfl
    cases done with
    | nil =>
      have below : Below bound s.stream.item := first (s.stream.item, s.stream.mode) rfl
      simp only [length_nil, Nat.mul_zero, law.codes_nil] at inserted_le size_le
      have none_taken := taken below (by omega)
      simp at none_taken
    | cons op done => simp at longer
  | ended look more all room =>
    subst all
    refine ⟨s, out, done, [], by rw [look]; rfl, rfl, ?_, filling.filled old_le (by omega),
      .ended more rfl, reach⟩
    simpa using some_op
  | beyond look more all room above =>
    refine ⟨s, out, done, todo, by rw [look]; rfl, rfl, ?_, filling.filled old_le (by omega),
      .next more all, reach⟩
    rintro rfl
    subst all
    exact above (first (s.stream.item, s.stream.mode) rfl)
  | full look more x last all room room_le =>
    have several : 2 ≤ done.length := by
      by_contra few
      have one := Nat.mul_le_mul_left law.codeMax (show done.length ≤ 1 by omega)
      omega
    refine ⟨s, out, done, todo, by rw [look]; rfl, rfl, ?_, filling.filled old_le (by omega),
      .again more x last all several, reach⟩
    rintro rfl
    simp at several

/-- A quarter of a block of the last category is more than a code takes, also when it is moved to
the start of a block. -/
class Suits (law : LawfulIsamc m) (layout : Layout) : Prop where
  codeMax_lt : law.codeMax < layout.quater
  restart_le : law.codeMax + law.restart ≤ layout.quater

instance (n : Nat) (layout : Layout) : Suits (keyLawful n) layout where
  codeMax_lt := (by decide : 46 < 126).trans_le layout.quater_ge
  restart_le := (by decide : 46 + 46 ≤ 126).trans layout.quater_ge

/-- `insert_leaf`'s new contents: the operations done are a nonempty front part of the stream. -/
theorem fillLeaf_spec {layout : Layout} [suits : Suits law layout] {b : Isamb}
    (shaped : Shaped layout b)
    (p : Option (Block Code)) (stream : Stream Item) (bound_valid : ∀ u ∈ bound, law.Valid u)
    (bytes : (p.map Block.bytes).getD [] = law.codes none old)
    (old_le : (law.codes none old).length ≤ 4 * layout.quater)
    (old_sorted : old.Pairwise (· < ·)) (old_valid : ∀ y ∈ old, law.Valid y)
    (old_below : ∀ y ∈ old, Below bound y) (ops : ValidOps law.Valid stream.all)
    (present : Present bound stream.all old) (first : Below bound stream.item) :
    ∃ s out done todo,
      fillLeaf m b p stream bound = .ok s ∧ done ++ todo = stream.all ∧ done ≠ [] ∧
        Filled law layout.quater old out done s ∧ Remains done todo s.stream s.more ∧
        ∀ op ∈ done, Below bound op.1 := by
  have quater_ge := layout.quater_ge
  have blockMax : b.blockMax (b.noCat - 1) = 4 * layout.quater := by
    have last : b.noCat - 1 = layout.btree := by rw [shaped.noCat]; rfl
    rw [last, shaped.blockMax _ layout.btree_lt, layout.room_btree]
  let start : LeafState Item Code :=
    { buf := { size := 0, pieces := [] }, c2 := m.reset, cut := none, noItems := 0, inserted := 0
      dirty := false, look := true, stream, more := true }
  have filling : Filling law layout.quater old [] old [] start := by
    refine ⟨⟨⟨rfl, rfl, rfl, fun _ => Nat.zero_le _, nofun⟩, rfl⟩, old_sorted, old_valid,
      Applied.refl old, ?_, Nat.zero_le _, fun pos => absurd pos (lt_irrefl 0), fun _ => rfl⟩
    simp [start, lastItem]
  have pending : Pending law layout.quater bound [] [] stream.all start :=
    .look rfl rfl rfl (show 0 < layout.quater by omega) (forall_mem_nil _)
  have first_head : ∀ op ∈ stream.all.head?, Below bound op.1 := by
    intro op mem
    cases mem
    exact first
  have quarter : 4 * layout.quater / 4 = layout.quater := by omega
  have sum : 4 * layout.quater + layout.quater = 5 * layout.quater := by omega
  cases old with
  | nil =>
    obtain ⟨s, out, done, todo, run, rest⟩ := finish_spec bound_valid filling pending old_le ops
      present (forall_mem_nil _) first_head (by simp [Stream.all]) suits.codeMax_lt
    refine ⟨s, out, done, todo, ?_, rest⟩
    rw [law.codes_nil] at bytes
    simp only [fillLeaf, blockMax, bytes, quarter, sum]
    exact run
  | cons f fs =>
    have f_valid := old_valid f mem_cons_self
    have decoded : m.decode m.reset (law.codes none (f :: fs)) =
        some (f, law.after f, law.codes (some f) fs) :=
      law.decode_piece law.valid_none f_valid _
    have two_mul_le := law.two_mul_le_codes law.valid_none old_valid
    have nonempty : law.codes none (f :: fs) ≠ [] := by
      intro empty
      rw [empty] at two_mul_le
      simp at two_mul_le
    rw [length_cons] at two_mul_le
    obtain ⟨s₁, out₁, done₁, todo₁, run₁, same₁, filling₁, pending₁, reach₁⟩ :=
      interleave_spec bound_valid (2 * (4 * layout.quater)) filling pending ops present old_below
        (forall_mem_nil _) suits.codeMax_lt (by
          change fs.length + (layout.quater - 0) < _
          omega)
    rw [nil_append] at same₁
    obtain ⟨s, out, done, todo, run, same, rest⟩ := finish_spec bound_valid filling₁ pending₁
      old_le (same₁ ▸ ops) (same₁ ▸ present) reach₁ (same₁ ▸ first_head)
      (by rw [same₁]; simp [Stream.all]) suits.codeMax_lt
    refine ⟨s, out, done, todo, ?_, same.trans same₁, rest⟩
    simp only [fillLeaf, blockMax, bytes, quarter, sum, if_neg nonempty, decoded]
    change (interleave m layout.quater bound (2 * (4 * layout.quater)) (law.after f)
      (law.codes (some f) fs) f start >>= _) = _
    rw [run₁]
    exact run

end

end

end Zebra.Isamb
