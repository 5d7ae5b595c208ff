import Mathlib.Algebra.BigOperators.Group.Finset.Basic
import Zebra.Update.MatchDict

/-!
# Statistics over the life of records

The counters of a database are sums over its live records: their number, their sizes, and for an
ordinal their keys.  Each request adds what its version has and takes away what the old one had.
-/

namespace Zebra.Update

open Function Option Finset Lives Update.Explain

open scoped BigOperators

variable {zh : ZebraHandle} {req : Request} {w w' : World} {sysno : Nat}
  {matchStr : Option (List Byte)} {version : Version}

/-- The sum of `f` over the last versions of the live records. -/
def Lives.total (lives : Lives) (f : Version → Int) : Int :=
  ∑ sysno ∈ lives.live, f (lives.version sysno)

theorem Lives.total_inserted (lives : Lives) (f : Version → Int) (fresh : sysno ∉ lives.live) :
    (lives.apply (.inserted sysno matchStr version)).total f = lives.total f + f version := by
  simp only [total, apply]
  rw [sum_insert fresh, update_self, add_comm]
  congr 1
  refine sum_congr rfl fun other mem => ?_
  have ne : other ≠ sysno := fun same => fresh (same ▸ mem)
  rw [update_of_ne ne]

theorem Lives.total_updated (lives : Lives) (f : Version → Int) (is_live : sysno ∈ lives.live) :
    (lives.apply (.updated sysno version)).total f =
      lives.total f - f (lives.version sysno) + f version := by
  simp only [total, apply]
  rw [← add_sum_erase _ _ is_live, ← add_sum_erase lives.live _ is_live,
    update_self]
  have rest : ∑ other ∈ lives.live.erase sysno,
      f (Function.update lives.version sysno version other) =
      ∑ other ∈ lives.live.erase sysno, f (lives.version other) := by
    refine sum_congr rfl fun other mem => ?_
    rw [update_of_ne (ne_of_mem_erase mem)]
  rw [rest]
  ring

theorem Lives.total_deleted (lives : Lives) (f : Version → Int) (is_live : sysno ∈ lives.live) :
    (lives.apply (.deleted sysno)).total f = lives.total f - f (lives.version sysno) := by
  simp only [total, apply]
  rw [← add_sum_erase lives.live _ is_live]
  ring

/-- `recordSize` in the attributes of the record that the store gives. -/
def storedSize (zh : ZebraHandle) (w : World) (sysno : Nat) : Int :=
  ((w.reg.records.get zh.infoSize sysno).1.bind Record.attr).elim 0 RecordAttr.recordSize

def hasOrd (ord : Int) (version : Version) : Int :=
  if ord ∈ version.keys.map RecKey.ord then 1 else 0

/-- The counters are those of the live records. -/
structure Counted (zh : ZebraHandle) (w : World) : Prop where
  records : w.reg.zei.recordCount = w.lives.live.card
  bytes : w.reg.zei.recordBytes = ∑ sysno ∈ w.lives.live, storedSize zh w sysno
  terms : ∀ ord, w.reg.zei.termOccurrences ord =
    ∑ sysno ∈ w.lives.live, (ordCount ord (w.lives.version sysno).keys : Int)
  docs : ∀ ord, w.reg.zei.docOccurrences ord =
    ∑ sysno ∈ w.lives.live, hasOrd ord (w.lives.version sysno)

/-- What a request has to meet. -/
structure Measured (zh : ZebraHandle) (w : World) (req : Request) : Prop where
  /-- A record that is found is live and its keys are stored. -/
  live : FindsLive zh w req
  /-- For a new version: data that the filter stores is as long as the record, and the length is
  not the one `int` without an opposite. -/
  size : ((∃ matchStr, plan zh w.reg req = .add matchStr) ∨
      ∃ sysno matchStr action, plan zh w.reg req = .change sysno matchStr action ∧
        ¬(action = .delete ∨ action = .aDelete)) →
    ∀ e, req.stream = some e → extent e ≠ -intHalf ∧
      ∀ size, e.storeData = some size → castInt size = extent e

/-- The counters as sums over versions. -/
structure Tallied (w : World) : Prop where
  records : w.reg.zei.recordCount = w.lives.total fun _ => 1
  bytes : w.reg.zei.recordBytes = w.lives.total Version.size
  terms : ∀ ord, w.reg.zei.termOccurrences ord =
    w.lives.total fun version => ordCount ord version.keys
  docs : ∀ ord, w.reg.zei.docOccurrences ord = w.lives.total (hasOrd ord)
  opposite : ∀ sysno ∈ w.lives.live,
    castInt (-(w.lives.version sysno).size) = -(w.lives.version sysno).size

theorem bmod_neg_bmod {n : Int} {m : Nat} (pos : 0 < m) (ne : n.bmod (2 * m) ≠ -m) :
    (-n.bmod (2 * m)).bmod (2 * m) = -n.bmod (2 * m) := by
  have low : -((2 * m : Nat) / 2 : Int) ≤ n.bmod (2 * m) := Int.le_bmod (by omega)
  have high : n.bmod (2 * m) < ((2 * m : Nat) + 1 : Int) / 2 := Int.bmod_lt (by omega)
  exact Int.bmod_eq_of_le (by omega) (by omega)

theorem castInt_neg_castInt {n : Int} (ne : castInt n ≠ -intHalf) :
    castInt (-castInt n) = -castInt n := by
  have pos : 0 < intHalf := by decide
  rw [castInt] at ne
  rw [castInt, castInt]
  exact bmod_neg_bmod pos ne

theorem castInt_neg_extent {e : Extraction} (ne : extent e ≠ -intHalf) :
    castInt (-extent e) = -extent e := by
  rw [extent] at ne ⊢
  exact castInt_neg_castInt ne

theorem finalSize_eq {e : Extraction}
    (sizes : ∀ size, e.storeData = some size → castInt size = extent e) :
    finalSize e = extent e := by
  cases data : e.storeData with
  | none => rw [finalSize, data, elim_none]
  | some size =>
    rw [finalSize, data, elim_some]
    exact sizes size data

theorem requestVersion_size {reg : Register} {e : Extraction} {rank : Int}
    (stream : req.stream = some e) : (requestVersion zh reg req sysno rank).size = finalSize e := by
  simp only [requestVersion, stream, elim_some]

theorem tallied_step (tallied : Tallied w) (measured : Measured zh w req)
    (effect : Effect zh w req w') : Tallied w' := by
  cases effect with
  | idle lives matchDict zei keyBlock custom =>
    constructor
    · rw [zei, lives]
      exact tallied.records
    · rw [zei, lives]
      exact tallied.bytes
    · rw [zei, lives]
      exact tallied.terms
    · rw [zei, lives]
      exact tallied.docs
    · rw [lives]
      exact tallied.opposite
  | added sysno matchStr version e planned stream fresh pos sysno_eq version_eq lives keyBlock zei
      matchDict custom =>
      obtain ⟨records, bytes, occurrences⟩ := @flushStatistics_spec zh.staticrank sysno version.rank
        0 w.reg.zei w.reg.keyBlock (some version.keys) none
      obtain ⟨ne, sizes⟩ := measured.size (.inl ⟨matchStr, planned⟩) e stream
      have size_eq : version.size = extent e := by
        rw [version_eq, requestVersion_size stream, finalSize_eq sizes]
      refine ⟨?_, ?_, fun ord => ?_, fun ord => ?_, fun other mem => ?_⟩
      · rw [zei, lives, total_inserted _ _ fresh, ← tallied.records]
        exact records
      · rw [zei, lives, total_inserted _ _ fresh, ← tallied.bytes, size_eq, ← bytes]
        rfl
      · rw [zei, lives, total_inserted _ _ fresh, ← tallied.terms]
        refine (occurrences ord).1.trans ?_
        simp [ordCount]
      · rw [zei, lives, total_inserted _ _ fresh, ← tallied.docs]
        refine (occurrences ord).2.trans ?_
        simp [hasOrd]
      · rw [lives] at mem ⊢
        by_cases same : other = sysno
        · subst same
          simp only [apply, update_self, size_eq]
          exact castInt_neg_extent ne
        · simp only [apply, update_of_ne same]
          exact tallied.opposite other (mem_of_mem_insert_of_ne mem same)
  | updated sysno matchStr action version e planned is_update stream is_live version_eq lives
      keyBlock zei matchDict custom =>
      obtain ⟨records, bytes, occurrences⟩ := @flushStatistics_spec zh.staticrank sysno version.rank
        (w.lives.version sysno).rank
        (w.reg.zei.recordBytesIncrement (castInt (-(w.lives.version sysno).size)))
        w.reg.keyBlock (some version.keys) (some (w.lives.version sysno).keys)
      obtain ⟨ne, sizes⟩ :=
        measured.size (.inr ⟨sysno, matchStr, action, planned, is_update⟩) e stream
      have size_eq : version.size = extent e := by
        rw [version_eq, requestVersion_size stream, finalSize_eq sizes]
      refine ⟨?_, ?_, fun ord => ?_, fun ord => ?_, fun other mem => ?_⟩
      · rw [zei, lives, total_updated _ _ is_live, ← tallied.records]
        refine records.trans ?_
        simp [recordBytesIncrement]
      · rw [zei, lives, total_updated _ _ is_live, ← tallied.bytes, size_eq,
          recordBytesIncrement]
        dsimp only
        rw [bytes, recordBytesIncrement, tallied.opposite sysno is_live]
        ring
      · rw [zei, lives, total_updated _ _ is_live, ← tallied.terms]
        refine (occurrences ord).1.trans ?_
        simp only [recordBytesIncrement, getD_some]
        ring
      · rw [zei, lives, total_updated _ _ is_live, ← tallied.docs]
        refine (occurrences ord).2.trans ?_
        simp only [recordBytesIncrement, getD_some, hasOrd]
        ring
      · rw [lives] at mem ⊢
        by_cases same : other = sysno
        · subst same
          simp only [apply, update_self, size_eq]
          exact castInt_neg_extent ne
        · simp only [apply, update_of_ne same]
          exact tallied.opposite other mem
  | deleted sysno matchStr action planned is_delete is_live lives keyBlock zei matchDict custom =>
    obtain ⟨records, bytes, occurrences⟩ := @flushStatistics_spec zh.staticrank sysno
      (w.lives.version sysno).rank (w.lives.version sysno).rank
      (w.reg.zei.recordBytesIncrement (castInt (-(w.lives.version sysno).size)))
      w.reg.keyBlock none (some (w.lives.version sysno).keys)
    refine ⟨?_, ?_, fun ord => ?_, fun ord => ?_, fun other mem => ?_⟩
    · rw [zei, lives, total_deleted _ _ is_live, ← tallied.records]
      refine records.trans ?_
      simp only [recordBytesIncrement, isSome_none, isNone_some,
        isSome_some, isNone_none, Bool.false_eq_true, false_and, and_true, if_true,
        if_false]
      ring
    · rw [zei, lives, total_deleted _ _ is_live, ← tallied.bytes]
      rw [bytes, recordBytesIncrement, tallied.opposite sysno is_live]
      ring
    · rw [zei, lives, total_deleted _ _ is_live, ← tallied.terms]
      refine (occurrences ord).1.trans ?_
      simp only [recordBytesIncrement, getD_some, getD_none, ordCount,
        List.map_nil, List.count_nil]
      ring
    · rw [zei, lives, total_deleted _ _ is_live, ← tallied.docs]
      refine (occurrences ord).2.trans ?_
      simp only [recordBytesIncrement, getD_some, getD_none, hasOrd,
        List.map_nil, List.not_mem_nil, if_false]
      ring
    · rw [lives] at mem ⊢
      exact tallied.opposite other (mem_of_mem_erase mem)

/-- In every run whose requests meet the conditions the counters are those of the live records. -/
theorem statistics_conserved (zh : ZebraHandle) (w : World) (run : Reaches zh (Measured zh) w) :
    Counted zh w := by
  obtain ⟨tracks, tallied⟩ : Tracks zh w ∧ Tallied w :=
    Reaches.induct (fun w req _ _ measured => measured.live)
      (fun _ _ _ => ⟨rfl, rfl, fun _ => rfl, fun _ => rfl,
        fun _ mem => absurd mem (notMem_empty _)⟩)
      (fun w req w' _ tallied measured effect _ => tallied_step tallied measured effect)
      (fun w _ tallied => ⟨tallied.records, tallied.bytes, tallied.terms, tallied.docs,
        tallied.opposite⟩) run
  refine ⟨?_, ?_, tallied.terms, tallied.docs⟩
  · rw [tallied.records, Lives.total]
    simp
  · rw [tallied.bytes, Lives.total]
    refine sum_congr rfl fun sysno mem => ?_
    obtain ⟨records', get_eq, -⟩ := get_live tracks mem
    rw [storedSize, get_eq]
    rfl

theorem measured_plain {w : World} {req : Request} (live : FindsLive plainHandle w req)
    (plain : ∀ e ∈ req.stream, extent e ≠ -intHalf ∧ e.storeData = none) :
    Measured plainHandle w req where
  live := live
  size := by
    intro _ e stream
    obtain ⟨one, none⟩ := plain e stream
    refine ⟨one, fun size data => ?_⟩
    cases none.symm.trans data

theorem statistics_conserved_one : ∃ w, Reaches plainHandle (Measured plainHandle) w ∧
    w.lives.live = {1} ∧ Counted plainHandle w := by
  have start : Reaches plainHandle (Measured plainHandle) (World.empty 1 0) :=
    .empty 1 0 (by decide)
  have added {w : World} {req : Request} {matchStr : Option (List Byte)}
      (planned : plan plainHandle w.reg req = .add matchStr) : FindsLive plainHandle w req := by
    intro sysno matchStr' action planned'
    cases planned.symm.trans planned'
  have found {w : World} {req : Request} {sysno : Nat} {matchStr : Option (List Byte)}
      {action : Action} (planned : plan plainHandle w.reg req = .change sysno matchStr action)
      (is_live : sysno ∈ w.lives.live) : FindsLive plainHandle w req := by
    intro sysno' matchStr' action' planned'
    cases planned.symm.trans planned'
    exact ⟨is_live, rfl⟩
  have one := Reaches.request insertOne start (measured_plain (added rfl) (by decide)) rfl
  have two := Reaches.request insertOther one (measured_plain (added rfl) (by decide)) rfl
  have updated := Reaches.request updateOne two
    (measured_plain (found rfl (by decide)) (by decide)) rfl
  have deleted := Reaches.request (deleteByNumber 2) updated
    (measured_plain (found rfl (by decide)) (by decide)) rfl
  exact ⟨_, deleted.reopen, by decide, statistics_conserved plainHandle _ deleted.reopen⟩

/-- Insert a record of ten bytes for which the filter stores three. -/
def insertStored : Request where
  action := .update
  sysno := some 0
  matchCriteria := []
  fname := []
  stream := some { oneKey with storeData := some 3 }
  streamless := nofun

/-- `recordSize` is overwritten after it was added to `recordBytes`. -/
theorem stored_size_not_counted : ∃ zh w, Reaches zh (fun _ _ => True) w ∧ ¬Counted zh w := by
  have start : Reaches plainHandle (fun _ _ => True) (World.empty 1 0) := .empty 1 0 (by decide)
  have inserted := Reaches.request insertStored start trivial rfl
  refine ⟨plainHandle, _, inserted, fun counted => ?_⟩
  have bytes := counted.bytes
  revert bytes
  decide

end Zebra.Update
