import Mathlib.Data.List.Destutter
import Zebra.Index.KeyHeap
import Zebra.Lib.Fuel

/-!
# Pending insertions and deletions

`kinput.c`: what comes from the heap is given to the merge of one term after another.  Insertions
and deletions of a key cancel each other, for which one key is read ahead.
-/

namespace Zebra.TempFile

open List

structure HeapCreadInfo where
  prevName : List Byte
  curName : List Byte
  /-- `key[0]`, whether to insert, and the key behind it. -/
  key : Bool × ItKey
  /-- The first `sz_1` bytes of `key_1`. -/
  key1 : Option ItKey
  key2 : ItKey
  mode1 : Bool
  mode2 : Bool
  hi : Merge
  firstInList : Bool
  more : Bool
  ret : Int
  lookLevel : Int

/-- `heap_cread_item`, none when it returns 0. -/
def heapCreadItem (p : HeapCreadInfo) : Option (Bool × ItKey) × HeapCreadInfo :=
  if p.firstInList then (some p.key, { p with firstInList := false })
  else
    match heapReadOne p.hi with
    | none => (none, { p with prevName := p.curName, more := false })
    | some (entry, hi) =>
      let p := { p with
        prevName := p.curName
        curName := entry.name
        key := (entry.insert, entry.key)
        hi
        more := true }
      if p.curName ≠ [] ∧ strcmp p.curName p.prevName ≠ 0 then
        (none, { p with firstInList := true })
      else (some p.key, p)

/-- The loop of `heap_cread_item2`: the final level, none when it returns 0. -/
def levelLoop : Nat → Int → HeapCreadInfo → Option (Option Int × HeapCreadInfo)
  | 0, _, _ => none
  | fuel + 1, level, p =>
    match heapCreadItem p with
    | (none, p) =>
      if level ≠ 0 then some (some level, { p with ret := 0 })
      else some (none, { p with ret := -1 })
    | (some (mode2, key2), p) =>
      let p := { p with ret := 1, mode2, key2 }
      if keyCompare (p.key1.getD []) p.key2 = 0 then
        levelLoop fuel (if p.mode2 then level + 1 else level - 1) p
      else if level ≠ 0 then some (some level, p)
      else
        levelLoop fuel (if p.mode2 then 1 else -1)
          { p with key1 := some p.key2, mode1 := p.mode2 }

/-- The end of `heap_cread_item2`: `key_1` is given once for the level. -/
def giveLevel (level : Int) (p : HeapCreadInfo) : Option (Bool × Option ItKey) × HeapCreadInfo :=
  if level > 0 then (some (true, p.key1), { p with lookLevel := level - 1 })
  else (some (false, p.key1), { p with lookLevel := level + 1 })

/-- In `heap_cread_item2`: `key_1` is read, or is what has been read ahead. -/
def readKey1 (p : HeapCreadInfo) : HeapCreadInfo :=
  if p.ret = -1 then
    match heapCreadItem p with
    | (none, p) => { p with ret := 0, key1 := none }
    | (some (mode1, key1), p) => { p with ret := 1, mode1, key1 := some key1 }
  else { p with mode1 := p.mode2, key1 := some p.key2 }

/-- `heap_cread_item2`: the mode and what is copied from `key_1`, none when it returns 0. -/
def heapCreadItem2 (fuel : Nat) (p : HeapCreadInfo) :
    Option (Option (Bool × Option ItKey) × HeapCreadInfo) :=
  if p.lookLevel ≠ 0 then some (giveLevel p.lookLevel p)
  else if p.ret = 0 then some (none, { p with ret := -1 })
  else
    let p := readKey1 p
    (levelLoop fuel (if p.mode1 then 1 else -1) p).map fun (level, p) =>
      level.elim (none, p) fun level => giveLevel level p

/-- A merge reads until `heap_cread_item2` returns 0. -/
def readList : Nat → HeapCreadInfo → Option (List (Bool × Option ItKey) × HeapCreadInfo)
  | 0, _ => none
  | fuel + 1, p =>
    heapCreadItem2 fuel p >>= fun (item, p) =>
      item.elim (some ([], p)) fun item =>
        (readList fuel p).map fun (items, p) => (item :: items, p)

/-- The loop of `heap_inpb`: each name with what its merge reads. -/
def heapInpb : Nat → HeapCreadInfo → Option (List (List Byte × List (Bool × Option ItKey)))
  | 0, _ => none
  | fuel + 1, p =>
    if p.more then
      readList fuel p >>= fun (items, p') =>
        (heapInpb fuel p').map fun lists => (p.curName, items) :: lists
    else some []

/-- `hci` as `zebra_index_merge` sets it; the other fields of `buffers` hold anything. -/
def heapCreadStart (buffers : HeapCreadInfo) (hi : Merge) : HeapCreadInfo :=
  let hci := { buffers with ret := -1, firstInList := true, lookLevel := 0 }
  match heapReadOne hi with
  | none => { hci with hi, more := false }
  | some (entry, hi) =>
    { hci with hi, curName := entry.name, key := (entry.insert, entry.key), more := true }

/-- `heap_read_one` gives the entries of a list, and then no more. -/
inductive Pops : Merge → List Entry → Prop
  | nil {m : Merge} (read : heapReadOne m = none) : Pops m []
  | cons {m m' : Merge} {entry : Entry} {run : List Entry}
      (read : heapReadOne m = some (entry, m')) (rest : Pops m' run) : Pops m (entry :: run)

/-- How many more insertions than deletions there are of a key under a name. -/
def net (run : List Entry) (name : List Byte) (key : ItKey) : Int :=
  run.countP (fun e => e.name = name ∧ keyCompare key e.key = 0 ∧ e.insert) -
    run.countP fun e => e.name = name ∧ keyCompare key e.key = 0 ∧ ¬e.insert

def keysOf (run : List Entry) (name : List Byte) : List ItKey :=
  ((run.filter fun e => e.name = name).map Entry.key).destutter fun k1 k2 => keyCompare k1 k2 ≠ 0

/-- A key as often as the level says, to insert or to delete. -/
def emit (level : Int) (key : Option ItKey) : List (Bool × Option ItKey) :=
  List.replicate level.natAbs (decide (0 < level), key)

/-- What is left under a name when insertions and deletions have cancelled each other. -/
def due (run : List Entry) (name : List Byte) : List (Bool × Option ItKey) :=
  (keysOf run name).flatMap fun key => emit (net run name key) (some key)

def modeLevel (mode : Bool) : Int := if mode then 1 else -1

/-- What comes of a key with a level and the entries behind it. -/
def cancel (key : ItKey) (level : Int) : List Entry → List (Bool × Option ItKey)
  | [] => emit level (some key)
  | entry :: rest =>
    if keyCompare key entry.key = 0 then cancel key (level + modeLevel entry.insert) rest
    else emit level (some key) ++ cancel entry.key (modeLevel entry.insert) rest

section

variable {p : HeapCreadInfo} {group after : List Entry} {out : List (Bool × Option ItKey)}

/-- `group` is still to come under the current name, `after` under later ones. -/
structure Within (p : HeapCreadInfo) (group after : List Entry) : Prop where
  not_first : p.firstInList = false
  pops : Pops p.hi (group ++ after)
  names : ∀ entry ∈ group, entry.name = p.curName
  later : ∀ entry ∈ after.head?, strcmp p.curName entry.name < 0

/-- The current name has come to its end: the first entry of the next is known. -/
structure Ended (p : HeapCreadInfo) (after : List Entry) : Prop where
  more : p.more = true ↔ after ≠ []
  first : ∀ entry ∈ after.head?, p.firstInList = true ∧ p.curName = entry.name ∧
    p.key = (entry.insert, entry.key) ∧ Pops p.hi after.tail

/-- `out` is still to be given under the current name. -/
inductive Between : HeapCreadInfo → List (Bool × Option ItKey) → List Entry → Prop
  | fresh {p : HeapCreadInfo} {group after : List Entry} (look : p.lookLevel = 0)
      (ret : p.ret = -1) (first : p.firstInList = true)
      (within : Within { p with firstInList := false } group after) :
      Between p (cancel p.key.2 (modeLevel p.key.1) group) after
  | last {p : HeapCreadInfo} {after : List Entry} (ret : p.ret = 0) (ended : Ended p after) :
      Between p (emit p.lookLevel p.key1) after
  | ahead {p : HeapCreadInfo} {group after : List Entry} (ret : p.ret = 1)
      (within : Within p group after) :
      Between p (emit p.lookLevel p.key1 ++ cancel p.key2 (modeLevel p.mode2) group) after

theorem Within.item_next {entry : Entry} (within : Within p (entry :: group) after) :
    ∃ hi, heapCreadItem p = (some (entry.insert, entry.key),
        { p with
          prevName := p.curName, key := (entry.insert, entry.key), hi, more := true }) ∧
      Pops hi (group ++ after) := by
  have pops := within.pops
  rw [cons_append] at pops
  have name := within.names entry mem_cons_self
  cases pops with
  | cons read rest =>
    refine ⟨_, ?_, rest⟩
    have same : strcmp entry.name p.curName = 0 := strcmp_eq_zero.mpr name
    simp only [heapCreadItem, within.not_first, read, same]
    simp [name]

theorem Within.item_end (within : Within p [] after) :
    ∃ p', heapCreadItem p = (none, p') ∧ Ended p' after ∧ p'.key1 = p.key1 ∧
      p'.lookLevel = p.lookLevel := by
  have pops := within.pops
  rw [nil_append] at pops
  cases pops with
  | nil read =>
    refine ⟨{ p with prevName := p.curName, more := false }, ?_, ⟨?_, ?_⟩, rfl, rfl⟩
    · simp only [heapCreadItem, within.not_first, read]
      rfl
    · simp
    · intro entry mem
      cases mem
  | @cons _ hi entry run read rest =>
    have lt := within.later entry rfl
    have nonempty : entry.name ≠ [] := by
      intro empty
      rw [empty, strcmp_neg] at lt
      exact not_lt_nil _ lt
    have differ : strcmp entry.name p.curName ≠ 0 := by
      rw [strcmp_swap]
      omega
    refine ⟨{ p with
      prevName := p.curName, curName := entry.name, key := (entry.insert, entry.key), hi,
      more := true, firstInList := true }, ?_, ⟨?_, ?_⟩, rfl, rfl⟩
    · simp only [heapCreadItem, within.not_first, read]
      simp [nonempty, differ]
    · simp
    · intro e mem
      obtain rfl : entry = e := Option.some.inj mem
      exact ⟨rfl, rfl, rfl, rest⟩

theorem emit_pos {level : Int} (pos : 0 < level) (key : Option ItKey) :
    emit level key = (true, key) :: emit (level - 1) key := by
  have abs : level.natAbs = (level - 1).natAbs + 1 := by omega
  rw [emit, emit, abs, replicate_succ, decide_eq_true pos]
  by_cases one : level = 1
  · subst one
    rfl
  · rw [decide_eq_true (show 0 < level - 1 by omega)]

theorem emit_neg {level : Int} (neg : level < 0) (key : Option ItKey) :
    emit level key = (false, key) :: emit (level + 1) key := by
  have abs : level.natAbs = (level + 1).natAbs + 1 := by omega
  rw [emit, emit, abs, replicate_succ, decide_eq_false (show ¬0 < level by omega),
    decide_eq_false (show ¬0 < level + 1 by omega)]

theorem emit_zero (key : Option ItKey) : emit 0 key = [] := rfl

/-- The loop goes on to the first key that has not been cancelled. -/
theorem levelLoop_spec {key : ItKey} (level : Int) (within : Within p group after)
    (key1 : p.key1 = some key) (look : p.lookLevel = 0) :
    ∃ result p', Settles (fun fuel => levelLoop fuel level p) (result, p') ∧
      ((result = none ∧ cancel key level group = [] ∧ Ended p' after ∧ p'.ret = -1 ∧
          p'.lookLevel = 0) ∨
        ∃ final, result = some final ∧ final ≠ 0 ∧
          Between { p' with lookLevel := final } (cancel key level group) after) := by
  induction group generalizing key level p with
  | nil =>
    obtain ⟨p', item, ended, key1_eq, look_eq⟩ := within.item_end
    by_cases zero : level = 0
    · subst zero
      refine ⟨none, { p' with ret := -1 }, .succ ⟨0, fun fuel _ => ?_⟩,
        .inl ⟨rfl, emit_zero _, ⟨ended.more, ended.first⟩, rfl, look_eq.trans look⟩⟩
      dsimp only
      rw [levelLoop, item]
      rfl
    · refine ⟨some level, { p' with ret := 0 }, .succ ⟨0, fun fuel _ => ?_⟩,
        .inr ⟨level, rfl, zero, ?_⟩⟩
      · dsimp only
        rw [levelLoop, item]
        exact if_pos zero
      · rw [cancel, ← key1, ← key1_eq]
        exact Between.last (p := { p' with ret := 0, lookLevel := level }) rfl
          ⟨ended.more, ended.first⟩
  | cons entry group induction =>
    obtain ⟨hi, item, pops⟩ := within.item_next
    let q := { p with
      prevName := p.curName, key := (entry.insert, entry.key), hi, more := true, ret := 1,
      mode2 := entry.insert, key2 := entry.key }
    have within' : Within q group after :=
      ⟨within.not_first, pops, fun e mem => within.names e (.tail _ mem),
        within.later⟩
    have level_eq : (if entry.insert then level + 1 else level - 1) =
        level + modeLevel entry.insert := by
      cases entry.insert <;> rfl
    have round (fuel : Nat) : levelLoop (fuel + 1) level p =
        if keyCompare key entry.key = 0 then levelLoop fuel (level + modeLevel entry.insert) q
        else if level ≠ 0 then some (some level, q)
        else levelLoop fuel (modeLevel entry.insert)
          { q with key1 := some entry.key, mode1 := entry.insert } := by
      have compared : keyCompare (p.key1.getD []) entry.key = keyCompare key entry.key := by
        rw [key1, Option.getD_some]
      rw [levelLoop, item, ← level_eq, ← compared]
      rfl
    by_cases same : keyCompare key entry.key = 0
    · simp only [same, if_true] at round
      obtain ⟨result, p', settled, spec⟩ := induction _ within' key1 look
      refine ⟨result, p', .succ ?_, ?_⟩
      · simp only [round]
        exact settled
      · rwa [cancel, if_pos same]
    · simp only [same, if_false] at round
      by_cases zero : level = 0
      · subst zero
        simp only [ne_eq, not_true, if_false] at round
        obtain ⟨result, p', settled, spec⟩ := induction (modeLevel entry.insert)
          (p := { q with key1 := some entry.key, mode1 := entry.insert })
          ⟨within'.not_first, pops, within'.names, within'.later⟩ rfl look
        refine ⟨result, p', .succ ?_, ?_⟩
        · simp only [round]
          exact settled
        · rwa [cancel, if_neg same, emit_zero, nil_append]
      · simp only [ne_eq, zero, not_false_eq_true, if_true] at round
        refine ⟨some level, q, .succ ⟨0, fun fuel _ => round fuel⟩, .inr ⟨level, rfl, zero, ?_⟩⟩
        rw [cancel, if_neg same, ← key1]
        exact Between.ahead (p := { q with lookLevel := level }) rfl
          ⟨within'.not_first, pops, within'.names, within'.later⟩

/-- A key with a level is given once, with the mode of the level. -/
theorem Between.giveLevel (level : Int) (between : Between { p with lookLevel := level } out after)
    (ne : level ≠ 0) :
    ∃ item out' p', out = item :: out' ∧ TempFile.giveLevel level p = (some item, p') ∧
      Between p' out' after := by
  have given : ∃ rest, emit level p.key1 = (decide (0 < level), p.key1) :: emit rest p.key1 ∧
      TempFile.giveLevel level p = (some (decide (0 < level), p.key1),
        { p with lookLevel := rest }) := by
    rcases lt_or_gt_of_ne ne with neg | pos
    · exact ⟨level + 1, by rw [decide_eq_false (by omega), emit_neg neg], by
        rw [TempFile.giveLevel, if_neg (by omega), decide_eq_false (by omega)]⟩
    · exact ⟨level - 1, by rw [decide_eq_true pos, emit_pos pos], by
        rw [TempFile.giveLevel, if_pos pos, decide_eq_true pos]⟩
  obtain ⟨rest, emit_eq, given⟩ := given
  generalize state_eq : { p with lookLevel := level } = q at between
  cases between with
  | fresh look =>
    rw [← state_eq] at look
    exact absurd look ne
  | last ret ended =>
    subst state_eq
    exact ⟨_, _, _, emit_eq, given, .last ret ⟨ended.more, ended.first⟩⟩
  | ahead ret within =>
    subst state_eq
    refine ⟨_, _, _, ?_, given,
      .ahead ret ⟨within.not_first, within.pops, within.names, within.later⟩⟩
    dsimp only
    rw [emit_eq, cons_append]

/-- When nothing is left of a name, it has come to its end. -/
structure Done (p : HeapCreadInfo) (after : List Entry) : Prop where
  ended : Ended p after
  ret : p.ret = -1
  look : p.lookLevel = 0

theorem heapCreadItem2_read {q : HeapCreadInfo} {key : ItKey} {mode : Bool}
    (look : p.lookLevel = 0) (ret : p.ret ≠ 0) (read : readKey1 p = q)
    (within : Within q group after) (key1 : q.key1 = some key) (mode1 : q.mode1 = mode)
    (look' : q.lookLevel = 0) :
    ∃ item p', Settles (fun fuel => heapCreadItem2 fuel p) (item, p') ∧
      item = (cancel key (modeLevel mode) group).head? ∧
      (item = none → Done p' after) ∧
      (item ≠ none → Between p' (cancel key (modeLevel mode) group).tail after) := by
  have run (fuel : Nat) : heapCreadItem2 fuel p = (levelLoop fuel (modeLevel mode) q).map fun r =>
      r.1.elim (none, r.2) fun level => giveLevel level r.2 := by
    rw [heapCreadItem2, if_neg (not_not.mpr look), if_neg ret, read, ← mode1]
    rfl
  simp only [run]
  obtain ⟨result, p', settled, spec⟩ := levelLoop_spec (modeLevel mode) within key1 look'
  rcases spec with ⟨rfl, cancelled, ended, ret', look''⟩ | ⟨final, rfl, ne, between⟩
  · refine ⟨none, p', settled.map _, ?_, fun _ => ⟨ended, ret', look''⟩,
      fun given => absurd rfl given⟩
    rw [cancelled]
    rfl
  · obtain ⟨item, out', p'', out_eq, given, between'⟩ := Between.giveLevel final between ne
    refine ⟨some item, p'', ?_, ?_, nofun, fun _ => ?_⟩
    · rw [← given]
      exact settled.map _
    · rw [out_eq]
      rfl
    · rw [out_eq]
      exact between'

/-- `heap_cread_item2` gives the first of what is still to be given under a name. -/
theorem heapCreadItem2_spec (between : Between p out after) :
    ∃ item p', Settles (fun fuel => heapCreadItem2 fuel p) (item, p') ∧ item = out.head? ∧
      (item = none → Done p' after) ∧ (item ≠ none → Between p' out.tail after) := by
  by_cases look : p.lookLevel = 0
  · cases between with
    | fresh look' ret first within =>
      have item : heapCreadItem p = (some p.key, { p with firstInList := false }) := by
        rw [heapCreadItem, if_pos first]
      refine heapCreadItem2_read
        (q := { p with firstInList := false, ret := 1, mode1 := p.key.1, key1 := some p.key.2 })
        look (by omega) ?_ ⟨rfl, within.pops, within.names, within.later⟩ rfl rfl look
      rw [readKey1, if_pos ret, item]
    | last ret ended =>
      refine ⟨none, { p with ret := -1 }, ⟨0, fun fuel _ => ?_⟩, ?_,
        fun _ => ⟨⟨ended.more, ended.first⟩, rfl, look⟩, fun given => absurd rfl given⟩
      · dsimp only
        rw [heapCreadItem2, if_neg (not_not.mpr look), if_pos ret]
      · rw [look]
        rfl
    | ahead ret within =>
      rw [look, emit_zero, nil_append]
      refine heapCreadItem2_read (q := { p with mode1 := p.mode2, key1 := some p.key2 })
        look (by omega) ?_ ⟨within.not_first, within.pops, within.names, within.later⟩ rfl rfl look
      rw [readKey1, if_neg (by omega)]
  · obtain ⟨item, out', p', out_eq, given, between'⟩ :=
      Between.giveLevel (p := p) p.lookLevel between look
    refine ⟨some item, p', ⟨0, fun fuel _ => ?_⟩, ?_, nofun, fun _ => ?_⟩
    · dsimp only
      rw [heapCreadItem2, if_pos look, given]
    · rw [out_eq]
      rfl
    · rw [out_eq]
      exact between'

/-- All that is still to be given under a name is read. -/
theorem readList_spec (between : Between p out after) :
    ∃ p', Settles (fun fuel => readList fuel p) (out, p') ∧ Done p' after := by
  induction out generalizing p with
  | nil =>
    obtain ⟨item, p', settled, rfl, done, -⟩ := heapCreadItem2_spec between
    exact ⟨p', .step (fun _ => rfl) settled (.pure _), done rfl⟩
  | cons item out induction =>
    obtain ⟨item', p', settled, rfl, -, next⟩ := heapCreadItem2_spec between
    obtain ⟨p'', settled', done⟩ := induction (next (by simp))
    exact ⟨p'', .step (fun _ => rfl) settled (settled'.map _), done⟩

end

section

variable {run group after : List Entry} {name : List Byte} {key : ItKey}

theorem net_append (left right : List Entry) (name : List Byte) (key : ItKey) :
    net (left ++ right) name key = net left name key + net right name key := by
  simp only [net, countP_append]
  omega

theorem net_cons (entry : Entry) (run : List Entry) (name : List Byte) (key : ItKey) :
    net (entry :: run) name key =
      (if entry.name = name ∧ keyCompare key entry.key = 0 then modeLevel entry.insert else 0) +
        net run name key := by
  rw [← singleton_append, net_append]
  congr 1
  cases mode : entry.insert <;> by_cases same : entry.name = name ∧ keyCompare key entry.key = 0 <;>
    simp_all [net, modeLevel]

theorem net_eq_zero {run : List Entry}
    (none_of : ∀ entry ∈ run, ¬(entry.name = name ∧ keyCompare key entry.key = 0)) :
    net run name key = 0 := by
  induction run with
  | nil => rfl
  | cons entry run induction =>
    rw [net_cons, if_neg (none_of entry mem_cons_self), zero_add]
    exact induction fun e mem => none_of e (.tail _ mem)

theorem keysOf_append (left right : List Entry) (none_of : ∀ entry ∈ right, entry.name ≠ name) :
    keysOf (left ++ right) name = keysOf left name := by
  have no_right : (right.filter fun e => e.name = name) = [] :=
    filter_eq_nil_iff.mpr fun entry mem => by simpa using none_of entry mem
  rw [keysOf, filter_append, no_right, append_nil, keysOf]

theorem flatMap_emit_congr {keys : List ItKey} {f g : ItKey → Int}
    (same : ∀ key ∈ keys, f key = g key) :
    (keys.flatMap fun key => emit (f key) (some key)) =
      keys.flatMap fun key => emit (g key) (some key) :=
  flatMap_congr fun key mem => by rw [same key mem]

theorem cancel_eq (key : ItKey) (level : Int) (names : ∀ entry ∈ group, entry.name = name)
    (le : ∀ entry ∈ group, keyCompare key entry.key ≤ 0)
    (sorted : group.Pairwise fun e1 e2 => keyCompare e1.key e2.key ≤ 0) :
    cancel key level group =
      ((group.map Entry.key).destutter' (fun k1 k2 => keyCompare k1 k2 ≠ 0) key).flatMap fun k =>
        emit ((if keyCompare key k = 0 then level else 0) + net group name k) (some k) := by
  have law := keyCompare_comparator
  induction group generalizing key level with
  | nil =>
    have same : keyCompare key key = 0 := (keyCompare_eq_zero rfl).mpr rfl
    rw [cancel, map_nil, destutter'_nil, flatMap_singleton, if_pos same]
    exact congrArg (fun n => emit n (some key)) (add_zero level).symm
  | cons entry group induction =>
    obtain ⟨entry_le, sorted⟩ := pairwise_cons.mp sorted
    have names' : ∀ e ∈ group, e.name = name := fun e mem => names e (.tail _ mem)
    have entry_name := names entry mem_cons_self
    rw [cancel, map_cons]
    split
    · rename_i same
      rw [destutter'_cons_neg _ (not_not.mpr same),
        induction key _ names' (fun e mem => le e (.tail _ mem)) sorted]
      refine flatMap_emit_congr fun k _ => ?_
      rw [net_cons]
      have classes : keyCompare key k = 0 ↔ keyCompare k entry.key = 0 :=
        ⟨fun zero => law.zero_trans (law.zero_symm zero) same,
          fun zero => law.zero_trans same (law.zero_symm zero)⟩
      by_cases zero : keyCompare key k = 0
      · rw [if_pos zero, if_pos zero, if_pos ⟨entry_name, classes.mp zero⟩, add_assoc]
      · rw [if_neg zero, if_neg zero, if_neg fun both => zero (classes.mpr both.2), zero_add,
          zero_add]
    · rename_i differ
      -- all keys from here on are above the one in front
      have below : ∀ e ∈ entry :: group, keyCompare key e.key ≠ 0 := by
        intro e mem zero
        have entry_le_e : keyCompare entry.key e.key ≤ 0 := by
          rcases mem_cons.mp mem with rfl | mem
          · exact law.refl _
          · exact entry_le e mem
        have back : keyCompare entry.key key ≤ 0 :=
          law.trans _ _ _ entry_le_e (law.zero_symm zero).le
        have swap := law.swap key entry.key
        have lt := le entry mem_cons_self
        omega
      have same : keyCompare key key = 0 := (keyCompare_eq_zero rfl).mpr rfl
      rw [destutter'_cons_pos _ differ, flatMap_cons, if_pos same,
        net_eq_zero (fun e mem both => below e mem both.2), add_zero,
        induction entry.key _ names' entry_le sorted]
      congr 1
      refine flatMap_emit_congr fun k mem => ?_
      have k_mem : k ∈ (entry :: group).map Entry.key :=
        (destutter'_sublist _ _ _).subset mem
      obtain ⟨e, e_mem, rfl⟩ := mem_map.mp k_mem
      rw [net_cons, if_neg (below e e_mem), zero_add]
      by_cases zero : keyCompare entry.key e.key = 0
      · rw [if_pos zero, if_pos ⟨entry_name, law.zero_symm zero⟩]
      · rw [if_neg zero, if_neg fun both => zero (law.zero_symm both.2)]

def namesOf (run : List Entry) : List (List Byte) :=
  (run.map Entry.name).destutter fun name1 name2 => name1 ≠ name2

theorem namesOf_append {entry : Entry} (names : ∀ e ∈ group, e.name = entry.name)
    (later : ∀ e ∈ after, e.name ≠ entry.name) :
    namesOf (entry :: (group ++ after)) = entry.name :: namesOf after := by
  rw [namesOf, map_cons, destutter_cons']
  induction group with
  | nil =>
    cases after with
    | nil => rfl
    | cons next after =>
      rw [nil_append, map_cons,
        destutter'_cons_pos _ (later next mem_cons_self).symm]
      rfl
  | cons e group induction =>
    have same := names e mem_cons_self
    rw [cons_append, map_cons, same, destutter'_cons_neg _ (by simp)]
    exact induction fun e mem => names e (.tail _ mem)

theorem due_first {entry : Entry} (names : ∀ e ∈ group, e.name = entry.name)
    (le : ∀ e ∈ group, keyCompare entry.key e.key ≤ 0)
    (sorted : group.Pairwise fun e1 e2 => keyCompare e1.key e2.key ≤ 0)
    (later : ∀ e ∈ after, e.name ≠ entry.name) :
    due (entry :: (group ++ after)) entry.name =
      cancel entry.key (modeLevel entry.insert) group := by
  have law := keyCompare_comparator
  have all : ((entry :: group).filter fun e => e.name = entry.name) = entry :: group := by
    refine filter_eq_self.mpr fun e mem => ?_
    rcases mem_cons.mp mem with rfl | mem
    · simp
    · simpa using names e mem
  rw [due, cancel_eq entry.key _ names le sorted, ← cons_append, keysOf_append _ _ later, keysOf,
    all, map_cons, destutter_cons']
  refine flatMap_emit_congr fun k _ => ?_
  have no_later : net after entry.name k = 0 := net_eq_zero fun e mem both => later e mem both.1
  rw [net_append, no_later, add_zero, net_cons]
  by_cases zero : keyCompare entry.key k = 0
  · rw [if_pos zero, if_pos ⟨rfl, law.zero_symm zero⟩]
  · rw [if_neg zero, if_neg fun both => zero (law.zero_symm both.2)]

theorem due_later (front : List Entry) (others : ∀ e ∈ front, e.name ≠ name) :
    due (front ++ after) name = due after name := by
  have none_front : (front.filter fun e => e.name = name) = [] :=
    filter_eq_nil_iff.mpr fun entry mem => by simpa using others entry mem
  rw [due, due, keysOf, filter_append, none_front, nil_append, ← keysOf]
  refine flatMap_emit_congr fun k _ => ?_
  rw [net_append, net_eq_zero fun e mem both => others e mem both.1, zero_add]

/-- A run that is in order begins with all entries of its first name. -/
theorem split_first {entry : Entry} (sorted : (entry :: run).Pairwise InOrder) :
    ∃ group after, run = group ++ after ∧ (∀ e ∈ group, e.name = entry.name) ∧
      (∀ e ∈ after, strcmp entry.name e.name < 0) ∧
      (∀ e ∈ group, keyCompare entry.key e.key ≤ 0) ∧
      group.Pairwise (fun e1 e2 => keyCompare e1.key e2.key ≤ 0) ∧ after.Pairwise InOrder := by
  induction run with
  | nil => exact ⟨[], [], rfl, by simp⟩
  | cons next run induction =>
    obtain ⟨first, rest⟩ := pairwise_cons.mp sorted
    obtain ⟨next_le, rest'⟩ := pairwise_cons.mp rest
    rcases first next mem_cons_self with lt | ⟨same, le⟩
    · refine ⟨[], next :: run, rfl, by simp, fun e mem => ?_, by simp, List.Pairwise.nil, rest⟩
      rcases mem_cons.mp mem with rfl | mem
      · exact lt
      · rcases next_le e mem with lt' | ⟨same', -⟩
        · rw [strcmp_neg] at lt lt' ⊢
          exact lt.trans lt'
        · exact same' ▸ lt
    · obtain ⟨group, after, rfl, names, later, lows, group_sorted, after_sorted⟩ := induction
        (pairwise_cons.mpr ⟨fun e mem => first e (.tail _ mem), rest'⟩)
      have next_low : ∀ e ∈ group, keyCompare next.key e.key ≤ 0 := by
        intro e mem
        rcases next_le e (mem_append_left _ mem) with lt | ⟨-, le⟩
        · rw [strcmp_neg, ← same, names e mem] at lt
          exact absurd lt (lt_irrefl _)
        · exact le
      refine ⟨next :: group, after, rfl, ?_, later, ?_,
        pairwise_cons.mpr ⟨next_low, group_sorted⟩, after_sorted⟩
      · intro e mem
        rcases mem_cons.mp mem with rfl | mem
        · exact same.symm
        · exact names e mem
      · intro e mem
        rcases mem_cons.mp mem with rfl | mem
        · exact le
        · exact lows e mem

end

theorem heapInpb_spec {p : HeapCreadInfo} {run : List Entry} (done : Done p run)
    (sorted : run.Pairwise InOrder) :
    Settles (fun fuel => heapInpb fuel p)
      ((namesOf run).map fun name => (name, due run name)) := by
  induction left : run.length using Nat.strong_induction_on generalizing p run with
  | _ n induction =>
    cases run with
    | nil =>
      have no_more : p.more ≠ true := fun more => done.ended.more.mp more rfl
      refine .succ ⟨0, fun fuel _ => ?_⟩
      dsimp only
      rw [heapInpb, if_neg no_more]
      rfl
    | cons entry run =>
      obtain ⟨first, cur, key, pops⟩ := done.ended.first entry rfl
      obtain ⟨group, after, rfl, names, later, lows, group_sorted, after_sorted⟩ :=
        split_first sorted
      have later_ne : ∀ e ∈ after, e.name ≠ entry.name := by
        intro e mem same
        have lt := later e mem
        rw [same, strcmp_neg] at lt
        exact lt_irrefl _ lt
      have within : Within { p with firstInList := false } group after :=
        ⟨rfl, pops, fun e mem => (names e mem).trans cur.symm,
          fun e mem => cur ▸ later e (List.mem_of_mem_head? mem)⟩
      obtain ⟨p', settled, done'⟩ := readList_spec (.fresh done.look done.ret first within)
      have shorter := left
      rw [length_cons, length_append] at shorter
      have rest := induction after.length (by omega) done' after_sorted rfl
      rw [key, ← due_first names lows group_sorted later_ne] at settled
      rw [namesOf_append names later_ne, map_cons]
      have laters : ((namesOf after).map fun name =>
          (name, due (entry :: (group ++ after)) name)) =
          (namesOf after).map fun name => (name, due after name) := by
        refine map_congr_left fun name mem => ?_
        obtain ⟨e, e_mem, rfl⟩ := mem_map.mp ((destutter_sublist _ _).subset mem)
        rw [← cons_append, due_later (entry :: group)]
        intro e' mem'
        rcases mem_cons.mp mem' with rfl | mem'
        · exact (later_ne e e_mem).symm
        · rw [names e' mem']
          exact (later_ne e e_mem).symm
      have round (fuel : Nat) : heapInpb (fuel + 1) p = readList fuel p >>= fun r =>
          (heapInpb fuel r.2).map fun lists => (p.curName, r.1) :: lists := by
        rw [heapInpb, if_pos (done.ended.more.mpr (cons_ne_nil _ _))]
      rw [laters]
      refine .step round settled ?_
      rw [cur]
      exact rest.map _

section

variable {run : List Entry} {name : List Byte}

/-- Without repetitions a list still has something like each of its elements. -/
theorem exists_mem_destutter {α : Type} (like : α → α → Prop) [DecidableRel like]
    (refl : ∀ a, like a a) (trans : ∀ a b c, like a b → like b c → like a c) (l : List α) :
    ∀ a ∈ l, ∃ b ∈ l.destutter fun x y => ¬like x y, like b a := by
  have step (l : List α) (first : α) :
      ∀ a ∈ first :: l, ∃ b ∈ l.destutter' (fun x y => ¬like x y) first, like b a := by
    induction l generalizing first with
    | nil =>
      intro a mem
      exact ⟨first, by simp, mem_singleton.mp mem ▸ refl a⟩
    | cons second l induction =>
      intro a mem
      by_cases same : like first second
      · rw [destutter'_cons_neg _ (not_not.mpr same)]
        rcases mem_cons.mp mem with rfl | mem
        · exact induction a a mem_cons_self
        · rcases mem_cons.mp mem with rfl | mem
          · obtain ⟨b, b_mem, b_like⟩ := induction first first mem_cons_self
            exact ⟨b, b_mem, trans _ _ _ b_like same⟩
          · exact induction first a (.tail _ mem)
      · rw [destutter'_cons_pos _ same]
        rcases mem_cons.mp mem with rfl | mem
        · exact ⟨a, .head _, refl a⟩
        · obtain ⟨b, b_mem, b_like⟩ := induction second a mem
          exact ⟨b, .tail _ b_mem, b_like⟩
  cases l with
  | nil => simp
  | cons first l => exact step l first

/-- The keys of a name are given in increasing order, and none is left out. -/
theorem keysOf_spec (sorted : run.Pairwise InOrder) (name : List Byte) :
    (keysOf run name).Pairwise (fun k1 k2 => keyCompare k1 k2 < 0) ∧
      ∀ entry ∈ run, entry.name = name → ∃ key ∈ keysOf run name, keyCompare key entry.key = 0 := by
  have law := keyCompare_comparator
  constructor
  · have ordered : ((run.filter fun e => e.name = name).map Entry.key).Pairwise
        fun k1 k2 => keyCompare k1 k2 ≤ 0 := by
      refine pairwise_map.mpr (List.Pairwise.imp_of_mem ?_ (sorted.sublist filter_sublist))
      intro e1 e2 mem1 mem2 order
      have name1 : e1.name = name := by simpa using (mem_filter.mp mem1).2
      have name2 : e2.name = name := by simpa using (mem_filter.mp mem2).2
      rcases order with lt | ⟨-, le⟩
      · rw [strcmp_neg, name1, name2] at lt
        exact absurd lt (lt_irrefl _)
      · exact le
    have le : (keysOf run name).Pairwise fun k1 k2 => keyCompare k1 k2 ≤ 0 :=
      ordered.sublist (destutter_sublist _ _)
    have ne : (keysOf run name).IsChain fun k1 k2 => keyCompare k1 k2 ≠ 0 :=
      isChain_destutter _ _
    exact law.pairwise_neg le ne
  · intro entry mem entry_name
    refine exists_mem_destutter (fun k1 k2 => keyCompare k1 k2 = 0)
      (fun key => (keyCompare_eq_zero rfl).mpr rfl) (fun _ _ _ => law.zero_trans) _ entry.key ?_
    exact mem_map_of_mem (mem_filter.mpr ⟨mem, by simpa using entry_name⟩)

/-- The names are given in increasing order, and none is left out. -/
theorem namesOf_spec (sorted : run.Pairwise InOrder) :
    (namesOf run).Pairwise (fun name1 name2 => strcmp name1 name2 < 0) ∧
      ∀ entry ∈ run, entry.name ∈ namesOf run := by
  constructor
  · have ordered : (run.map Entry.name).Pairwise fun name1 name2 => strcmp name1 name2 ≤ 0 := by
      refine pairwise_map.mpr (sorted.imp fun {e1 e2} order => ?_)
      rcases order with lt | ⟨same, -⟩
      · exact lt.le
      · exact (strcmp_eq_zero.mpr same).le
    refine strcmp_comparator.pairwise_neg (ordered.sublist (destutter_sublist _ _)) ?_
    exact (isChain_destutter _ _).imp fun _ _ differ => mt strcmp_eq_zero.mp differ
  · intro entry mem
    obtain ⟨name, name_mem, same⟩ := exists_mem_destutter (fun a b : List Byte => a = b)
      (fun _ => rfl) (fun _ _ _ => Eq.trans) _ entry.name (mem_map_of_mem mem)
    exact same ▸ name_mem

/-- `zebra_index_merge` starts as if a name had just come to its end. -/
theorem heapCreadStart_done (buffers : HeapCreadInfo) {m : Merge} {run : List Entry}
    (pops : Pops m run) : Done (heapCreadStart buffers m) run := by
  cases pops with
  | nil read =>
    rw [heapCreadStart, read]
    exact ⟨⟨by simp, by simp⟩, rfl, rfl⟩
  | cons read rest =>
    rw [heapCreadStart, read]
    exact ⟨⟨by simp, fun e mem => Option.some.inj mem ▸ ⟨rfl, rfl, rfl, rest⟩⟩, rfl, rfl⟩

end

end Zebra.TempFile
