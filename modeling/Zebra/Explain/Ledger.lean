import Mathlib.Data.List.Nodup
import Zebra.Explain.Zinfo

/-!
# Databases and their indexes against the history

What a register says about its databases, with no regard to where it stands, in memory or in
records, and when this is what has been created, assigned and not removed.
-/

namespace Zebra.Explain

open List

/-- A database as the explain information has it. -/
structure View where
  ordinal : Nat
  name : List Byte
  indexes : List Index

namespace View

/-- Two views differ at most in the order of indexes. -/
structure Alike (v w : View) : Prop where
  ordinal : w.ordinal = v.ordinal
  name : w.name = v.name
  indexes : w.indexes.Perm v.indexes

def assign (database : Nat) (index : Index) (v : View) : View :=
  if v.ordinal = database then { v with indexes := index :: v.indexes } else v

theorem Alike.refl (v : View) : v.Alike v where
  ordinal := rfl
  name := rfl
  indexes := List.Perm.refl _

theorem Alike.trans {u v w : View} (first : u.Alike v) (second : v.Alike w) : u.Alike w where
  ordinal := second.ordinal.trans first.ordinal
  name := second.name.trans first.name
  indexes := second.indexes.trans first.indexes

@[simp]
theorem assign_ordinal (database : Nat) (index : Index) (v : View) :
    (v.assign database index).ordinal = v.ordinal := by
  unfold assign
  split <;> rfl

@[simp]
theorem assign_name (database : Nat) (index : Index) (v : View) :
    (v.assign database index).name = v.name := by
  unfold assign
  split <;> rfl

end View

theorem map_ordinal_of_alike {views others : List View}
    (alike : List.Forall₂ View.Alike views others) :
    others.map View.ordinal = views.map View.ordinal := by
  induction alike with
  | nil => rfl
  | cons head _ ih => rw [map_cons, map_cons, head.ordinal, ih]

theorem exists_alike_left {views others : List View}
    (alike : List.Forall₂ View.Alike views others) {w : View} (mem : w ∈ others) :
    ∃ v ∈ views, v.Alike w := by
  induction alike with
  | nil => cases mem
  | cons head _ ih =>
    rcases mem_cons.mp mem with rfl | mem
    · exact ⟨_, .head _, head⟩
    · obtain ⟨v, here, same⟩ := ih mem
      exact ⟨v, .tail _ here, same⟩

theorem exists_alike_right {views others : List View}
    (alike : List.Forall₂ View.Alike views others) {v : View} (mem : v ∈ views) :
    ∃ w ∈ others, v.Alike w := by
  induction alike with
  | nil => cases mem
  | cons head _ ih =>
    rcases mem_cons.mp mem with rfl | mem
    · exact ⟨_, .head _, head⟩
    · obtain ⟨w, here, same⟩ := ih mem
      exact ⟨w, .tail _ here, same⟩

namespace Event

def ordinal : Event → Option Nat
  | .assigned _ index => some index.ordinal
  | _ => none

def indexIn (database : Nat) : Event → Option Index
  | .assigned d index => if d = database then some index else none
  | _ => none

end Event

def ordinals (log : List Event) : List Nat :=
  log.filterMap Event.ordinal

/-- The indexes that have been assigned in a database. -/
def assignedTo (log : List Event) (database : Nat) : List Index :=
  log.filterMap (Event.indexIn database)

theorem mem_assignedTo {log : List Event} {database : Nat} {index : Index} :
    index ∈ assignedTo log database ↔ .assigned database index ∈ log := by
  rw [assignedTo, mem_filterMap]
  constructor
  · rintro ⟨event, mem, found⟩
    cases event with
    | created => cases found
    | removed => cases found
    | assigned d i =>
      rw [Event.indexIn] at found
      split at found
      · next same => cases found; exact same ▸ mem
      · cases found
  · intro mem
    exact ⟨_, mem, if_pos rfl⟩

theorem mem_ordinals {log : List Event} {ord : Nat} :
    ord ∈ ordinals log ↔ ∃ d index, .assigned d index ∈ log ∧ index.ordinal = ord := by
  rw [ordinals, mem_filterMap]
  constructor
  · rintro ⟨event, mem, found⟩
    cases event with
    | created => cases found
    | removed => cases found
    | assigned d index => exact ⟨d, index, mem, Option.some.inj found⟩
  · rintro ⟨d, index, mem, rfl⟩
    exact ⟨_, mem, rfl⟩

/-- With no ordinal twice in the history, an ordinal tells the database and the index. -/
theorem assigned_unique {log : List Event} (distinct : (ordinals log).Nodup) {d e : Nat}
    {i j : Index} (left : .assigned d i ∈ log) (right : .assigned e j ∈ log)
    (same : i.ordinal = j.ordinal) : d = e ∧ i = j := by
  induction log with
  | nil => cases left
  | cons event log ih =>
    rcases mem_cons.mp left with hl | hl <;> rcases mem_cons.mp right with hr | hr
    · cases hl.trans hr.symm
      exact ⟨rfl, rfl⟩
    · subst hl
      have elsewhere : i.ordinal ∈ ordinals log := mem_ordinals.mpr ⟨e, j, hr, same.symm⟩
      exact absurd elsewhere (nodup_cons.mp distinct).1
    · subst hr
      have elsewhere : j.ordinal ∈ ordinals log := mem_ordinals.mpr ⟨d, i, hl, same⟩
      exact absurd elsewhere (nodup_cons.mp distinct).1
    · apply ih _ hl hr
      cases event with
      | created => exact distinct
      | removed => exact distinct
      | assigned => exact (nodup_cons.mp distinct).2

/-- The databases are those of the history that have not been removed, each with the indexes
assigned in it, and the two counters are past all numbers of the history. -/
structure Agrees (P : List Byte → Prop) (views : List View) (log : List Event) (su db : Nat) :
    Prop where
  distinct : (ordinals log).Nodup
  assigned : ∀ d index, .assigned d index ∈ log →
    index.ordinal < su ∧ d < db ∧ P index.indexType ∧ P index.str
  created : ∀ d name, .created d name ∈ log → d < db
  removed : ∀ d, .removed d ∈ log → d < db
  live : ∀ d name, (∃ v ∈ views, v.ordinal = d ∧ v.name = name) ↔
    .created d name ∈ log ∧ .removed d ∉ log
  apart : (views.map View.ordinal).Nodup
  indexes : ∀ v ∈ views, v.indexes.Perm (assignedTo log v.ordinal)
  names : ∀ v ∈ views, P v.name

namespace Agrees

variable {P : List Byte → Prop} {views others : List View} {log : List Event} {su db : Nat}

theorem nil (su db : Nat) : Agrees P [] [] su db where
  distinct := nodup_nil
  assigned _ _ mem := nomatch mem
  created _ _ mem := nomatch mem
  removed _ mem := nomatch mem
  live d name := by simp
  apart := nodup_nil
  indexes _ mem := nomatch mem
  names _ mem := nomatch mem

theorem ordinal_lt (agrees : Agrees P views log su db) {v : View} (mem : v ∈ views) :
    v.ordinal < db :=
  agrees.created v.ordinal v.name ((agrees.live v.ordinal v.name).mp ⟨v, mem, rfl, rfl⟩).1

theorem not_removed (agrees : Agrees P views log su db) {v : View} (mem : v ∈ views) :
    .removed v.ordinal ∉ log :=
  ((agrees.live v.ordinal v.name).mp ⟨v, mem, rfl, rfl⟩).2

/-- Only the views matter, and these only up to the order of indexes. -/
theorem congr (agrees : Agrees P views log su db) (alike : List.Forall₂ View.Alike views others) :
    Agrees P others log su db where
  distinct := agrees.distinct
  assigned := agrees.assigned
  created := agrees.created
  removed := agrees.removed
  live d name := by
    rw [← agrees.live d name]
    constructor
    · rintro ⟨w, mem, rfl, rfl⟩
      obtain ⟨v, here, same⟩ := exists_alike_left alike mem
      exact ⟨v, here, same.ordinal.symm, same.name.symm⟩
    · rintro ⟨v, mem, rfl, rfl⟩
      obtain ⟨w, here, same⟩ := exists_alike_right alike mem
      exact ⟨w, here, same.ordinal, same.name⟩
  apart := by
    rw [map_ordinal_of_alike alike]
    exact agrees.apart
  indexes w mem := by
    obtain ⟨v, here, same⟩ := exists_alike_left alike mem
    rw [same.ordinal]
    exact same.indexes.trans (agrees.indexes v here)
  names w mem := by
    obtain ⟨v, here, same⟩ := exists_alike_left alike mem
    rw [same.name]
    exact agrees.names v here

theorem assignedTo_append (log : List Event) (event : Event) (d : Nat) :
    assignedTo (log ++ [event]) d = assignedTo log d ++ assignedTo [event] d :=
  filterMap_append

theorem ordinals_append (log : List Event) (event : Event) :
    ordinals (log ++ [event]) = ordinals log ++ ordinals [event] :=
  filterMap_append

theorem create (agrees : Agrees P views log su db) {name : List Byte} (plain : P name) :
    Agrees P (⟨db, name, []⟩ :: views) (log ++ [.created db name]) su (db + 1) where
  distinct := by
    have nothing : ordinals [Event.created db name] = [] := rfl
    rw [ordinals_append, nothing, append_nil]
    exact agrees.distinct
  assigned d index mem := by
    have earlier : .assigned d index ∈ log := by simpa using mem
    obtain ⟨ordinal, database, type, str⟩ := agrees.assigned d index earlier
    exact ⟨ordinal, Nat.lt_succ_of_lt database, type, str⟩
  created d other mem := by
    rcases mem_append.mp mem with earlier | now
    · exact Nat.lt_succ_of_lt (agrees.created d other earlier)
    · cases mem_singleton.mp now
      exact Nat.lt_succ_self db
  removed d mem := by
    have earlier : .removed d ∈ log := by simpa using mem
    exact Nat.lt_succ_of_lt (agrees.removed d earlier)
  live d other := by
    have unused : .removed db ∉ log := fun mem => absurd (agrees.removed db mem) (Nat.lt_irrefl db)
    have earlier := agrees.live d other
    constructor
    · rintro ⟨v, mem, rfl, rfl⟩
      rcases mem_cons.mp mem with rfl | mem
      · exact ⟨by simp, by simpa using unused⟩
      · obtain ⟨created, kept⟩ := (agrees.live v.ordinal v.name).mp ⟨v, mem, rfl, rfl⟩
        exact ⟨mem_append_left _ created, by simpa using kept⟩
    · rintro ⟨created, kept⟩
      rcases mem_append.mp created with before | now
      · obtain ⟨v, mem, here⟩ := earlier.mpr ⟨before, by simpa using kept⟩
        exact ⟨v, .tail _ mem, here⟩
      · cases mem_singleton.mp now
        exact ⟨_, .head _, rfl, rfl⟩
  apart := by
    rw [map_cons, nodup_cons]
    constructor
    · intro mem
      obtain ⟨v, here, same⟩ := mem_map.mp mem
      have := agrees.ordinal_lt here
      dsimp only at same
      omega
    · exact agrees.apart
  indexes v mem := by
    rw [assignedTo_append]
    have nothing : ∀ d, assignedTo [Event.created db name] d = [] := fun _ => rfl
    rw [nothing, append_nil]
    rcases mem_cons.mp mem with rfl | mem
    · have none : assignedTo log db = [] := by
        rw [eq_nil_iff_forall_not_mem]
        intro index here
        have := (agrees.assigned db index (mem_assignedTo.mp here)).2.1
        omega
      rw [none]
    · exact agrees.indexes v mem
  names v mem := by
    rcases mem_cons.mp mem with rfl | mem
    · exact plain
    · exact agrees.names v mem

/-- The next ordinal is assigned to an index of a database, which may have been removed. -/
theorem assign (agrees : Agrees P views log su db) {d : Nat} {index : Index} (within : d < db)
    (next : index.ordinal = su) (type : P index.indexType) (str : P index.str) :
    Agrees P (views.map (View.assign d index)) (log ++ [.assigned d index]) (su + 1) db where
  distinct := by
    have single : ordinals [Event.assigned d index] = [su] := by
      rw [← next]
      rfl
    rw [ordinals_append, single, nodup_append]
    refine ⟨agrees.distinct, nodup_singleton su, ?_⟩
    intro ord mem other now same
    obtain ⟨e, i, here, rfl⟩ := mem_ordinals.mp mem
    have := (agrees.assigned e i here).1
    have := mem_singleton.mp now
    omega
  assigned e i mem := by
    rcases mem_append.mp mem with earlier | now
    · obtain ⟨ordinal, rest⟩ := agrees.assigned e i earlier
      exact ⟨Nat.lt_succ_of_lt ordinal, rest⟩
    · cases mem_singleton.mp now
      exact ⟨by omega, within, type, str⟩
  created e name mem := agrees.created e name (by simpa using mem)
  removed e mem := agrees.removed e (by simpa using mem)
  live e name := by
    have same : (∃ v ∈ views.map (View.assign d index), v.ordinal = e ∧ v.name = name) ↔
        ∃ v ∈ views, v.ordinal = e ∧ v.name = name := by
      simp
    rw [same, agrees.live e name]
    simp
  apart := by
    rw [map_map]
    have same : View.ordinal ∘ View.assign d index = View.ordinal := by
      funext v
      exact View.assign_ordinal d index v
    rw [same]
    exact agrees.apart
  indexes v mem := by
    obtain ⟨w, here, rfl⟩ := mem_map.mp mem
    rw [View.assign_ordinal, assignedTo_append]
    unfold View.assign
    split
    · next same =>
      have single : assignedTo [Event.assigned d index] w.ordinal = [index] := by
        simp [assignedTo, Event.indexIn, same]
      rw [single]
      exact ((agrees.indexes w here).cons index).trans (perm_append_singleton _ _).symm
    · next other =>
      have none : assignedTo [Event.assigned d index] w.ordinal = [] := by
        have apart : d ≠ w.ordinal := fun same => other same.symm
        simp [assignedTo, Event.indexIn, apart]
      rw [none, append_nil]
      exact agrees.indexes w here
  names v mem := by
    obtain ⟨w, here, rfl⟩ := mem_map.mp mem
    rw [View.assign_name]
    exact agrees.names w here

theorem remove (agrees : Agrees P views log su db) {d : Nat} (within : d < db) :
    Agrees P (views.filter (·.ordinal != d)) (log ++ [.removed d]) su db where
  distinct := by
    have nothing : ordinals [Event.removed d] = [] := rfl
    rw [ordinals_append, nothing, append_nil]
    exact agrees.distinct
  assigned e index mem := agrees.assigned e index (by simpa using mem)
  created e name mem := agrees.created e name (by simpa using mem)
  removed e mem := by
    rcases mem_append.mp mem with earlier | now
    · exact agrees.removed e earlier
    · cases mem_singleton.mp now
      exact within
  live e name := by
    have earlier := agrees.live e name
    constructor
    · rintro ⟨v, mem, rfl, rfl⟩
      obtain ⟨here, other⟩ := mem_filter.mp mem
      obtain ⟨created, kept⟩ := (agrees.live v.ordinal v.name).mp ⟨v, here, rfl, rfl⟩
      have apart : v.ordinal ≠ d := by simpa using other
      exact ⟨mem_append_left _ created, by simp [kept, apart]⟩
    · rintro ⟨created, kept⟩
      have parts : .removed e ∉ log ∧ e ≠ d := by simpa [not_or] using kept
      obtain ⟨v, mem, same, named⟩ := earlier.mpr ⟨by simpa using created, parts.1⟩
      exact ⟨v, mem_filter.mpr ⟨mem, by simpa [same] using parts.2⟩, same, named⟩
  apart := agrees.apart.sublist (List.Sublist.map View.ordinal filter_sublist)
  indexes v mem := by
    rw [assignedTo_append]
    have nothing : assignedTo [Event.removed d] v.ordinal = [] := rfl
    rw [nothing, append_nil]
    exact agrees.indexes v (mem_filter.mp mem).1
  names v mem := agrees.names v (mem_filter.mp mem).1

/-- An index that has been assigned in a database that there is stands there, and only there. -/
theorem mem_iff (agrees : Agrees P views log su db) {index : Index} {v : View} (mem : v ∈ views) :
    index ∈ v.indexes ↔ .assigned v.ordinal index ∈ log := by
  rw [(agrees.indexes v mem).mem_iff, mem_assignedTo]

end Agrees

end Zebra.Explain
