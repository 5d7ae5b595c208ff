import Zebra.Search.Scan

/-!
# The terms of an index in order

What `rpn_scan_norm` finds for one index: the call of `dict_scan` gives the nearest term in its
direction, if the index has one.
-/

namespace Zebra.Search

open List

open Dict (Key Dictionary dictScan dictScan_after dictScan_before visit notBefore keysBefore
  not_lt_of_prefix prefix_of_between)

/-- A dictionary of an index: each key is there once, with postings. -/
structure TermDict extends Dictionary Byte Byte where
  distinct : ((toDictStruct.keys depth).map Key.str).Nodup
  isamP : ∀ key ∈ toDictStruct.keys depth, isamPOf key.info ≠ 0

def TermDict.allKeys (d : TermDict) : List (Key Byte Byte) :=
  d.toDictStruct.keys d.depth

/-- A key without what stands in front of it, and its postings. -/
def termOf (pre : List Byte) (key : Key Byte Byte) : List Byte × Nat :=
  (key.str.drop pre.length, isamPOf key.info)

def TermDict.termsAt (d : TermDict) (pre : List Byte) : List (List Byte × Nat) :=
  (d.allKeys.filter fun key => pre.isPrefixOf key.str).map (termOf pre)

variable {d : TermDict} {pre : List Byte}

variable {key : Key Byte Byte}

theorem str_of_front (front : pre <+: key.str) : pre ++ (termOf pre key).1 = key.str :=
  prefix_iff_eq_append.mp front

variable {t : List Byte}

theorem mem_termsAt {p : Nat} :
    (t, p) ∈ d.termsAt pre ↔ ∃ key ∈ d.allKeys, key.str = pre ++ t ∧ isamPOf key.info = p := by
  rw [TermDict.termsAt, mem_map]
  constructor
  · rintro ⟨key, mem, same⟩
    obtain ⟨listed, front⟩ := mem_filter.mp mem
    obtain ⟨rfl, rfl⟩ := Prod.mk.inj same
    exact ⟨key, listed, (str_of_front (List.isPrefixOf_iff_prefix.mp front)).symm, rfl⟩
  · rintro ⟨key, listed, str, rfl⟩
    refine ⟨key, mem_filter.mpr ⟨listed, ?_⟩, ?_⟩
    · rw [List.isPrefixOf_iff_prefix, str]
      exact prefix_append pre t
    · rw [termOf, str, drop_left]

theorem termOf_mem (listed : key ∈ d.allKeys) (front : pre <+: key.str) :
    termOf pre key ∈ d.termsAt pre :=
  mem_termsAt.mpr ⟨key, listed, (str_of_front front).symm, rfl⟩

theorem termsAt_nonzero {p : Nat} (mem : (t, p) ∈ d.termsAt pre) : p ≠ 0 := by
  obtain ⟨key, listed, -, rfl⟩ := mem_termsAt.mp mem
  exact d.isamP key listed

theorem termsAt_unique {p q : Nat} (first : (t, p) ∈ d.termsAt pre)
    (second : (t, q) ∈ d.termsAt pre) : p = q := by
  obtain ⟨key, listed, str, rfl⟩ := mem_termsAt.mp first
  obtain ⟨key', listed', str', rfl⟩ := mem_termsAt.mp second
  rw [inj_on_of_nodup_map d.distinct listed listed' (str.trans str'.symm)]

theorem append_lt {t u : List Byte} : pre ++ t < pre ++ u ↔ t < u := by
  induction pre with
  | nil => rfl
  | cons c pre ih =>
    rw [cons_append, cons_append, cons_lt_cons_iff, ih]
    simp

theorem append_le {t u : List Byte} : pre ++ t ≤ pre ++ u ↔ t ≤ u := by
  rw [← not_lt, ← not_lt, append_lt]

/-- An entry after the client function has seen a key at the place it waits for. -/
def took (e : ScanInfo) (key : Key Byte Byte) : ScanInfo :=
  if e.pre.isPrefixOf key.str then
    { e with term := (termOf e.pre key).1, isamP := (termOf e.pre key).2 }
  else
    e

theorem offer_took (forward : Bool) (e : ScanInfo) (key : Key Byte Byte)
    (place : e.posToSave = if forward then 1 else -1) :
    Dict.offer scanHandle2 forward ([] ++ key.str) key.info (1, e) = (0, took e key) := by
  have here : (if forward then ((1 : Nat) : Int) else -((1 : Nat) : Int)) = e.posToSave := by
    rw [place]
    cases forward <;> rfl
  simp only [Dict.offer, Nat.one_ne_zero, if_false, here, scanHandle2, ne_eq, not_true_eq_false,
    nil_append, took, termOf]
  split <;> rfl

theorem visit_one (forward : Bool) (e : ScanInfo) (keys : List (Key Byte Byte))
    (place : e.posToSave = if forward then 1 else -1) :
    (visit scanHandle2 forward [] keys (1, e)).2 =
      ((if forward then keys else keys.reverse).head?).elim e (took e) := by
  rw [visit]
  generalize (if forward then keys else keys.reverse) = list
  cases list with
  | nil => rfl
  | cons key rest =>
    rw [foldl_cons, offer_took forward e key place]
    have stays (list : List (Key Byte Byte)) :
        list.foldl (fun state key =>
          Dict.offer scanHandle2 forward ([] ++ key.str) key.info state) (0, took e key) =
            (0, took e key) := by
      induction list with
      | nil => rfl
      | cons key rest ih => exact ih
    rw [stays]
    rfl

/-- With two keys wanted after the string the entry takes the second. -/
theorem visit_two (e : ScanInfo) (keys : List (Key Byte Byte)) (place : e.posToSave = 1) :
    (visit scanHandle2 true [] keys (2, e)).2 = (keys.tail.head?).elim e (took e) := by
  cases keys with
  | nil => rfl
  | cons key rest =>
    have skip : Dict.offer scanHandle2 true ([] ++ key.str) key.info (2, e) = (1, e) := by
      simp [Dict.offer, scanHandle2, place]
    have rest_eq := visit_one true e rest place
    rw [← singleton_append, Dict.visit_append_forward, Dict.visit_singleton, skip, rest_eq]
    rfl

variable {e : ScanInfo} {keys : List (Key Byte Byte)}

/-- Of keys in order the first is taken, unless none is of the index. -/
theorem took_first (sorted : keys.Pairwise fun key key' => key.str ≤ key'.str)
    (above : ∀ key ∈ keys, ¬key.str < e.pre) :
    (keys.head?.elim e (took e) = e ∧ ∀ key ∈ keys, ¬e.pre <+: key.str) ∨
      ∃ key ∈ keys, e.pre <+: key.str ∧ keys.head?.elim e (took e) = took e key ∧
        ∀ key' ∈ keys, key.str ≤ key'.str := by
  cases keys with
  | nil => exact .inl ⟨rfl, fun key mem => absurd mem not_mem_nil⟩
  | cons key rest =>
    have least : ∀ key' ∈ key :: rest, key.str ≤ key'.str := by
      intro key' mem
      rcases mem_cons.mp mem with rfl | later
      · exact le_rfl
      · exact (pairwise_cons.mp sorted).1 key' later
    by_cases front : e.pre <+: key.str
    · exact .inr ⟨key, .head _, front, rfl, least⟩
    · left
      constructor
      · exact if_neg fun some => front (List.isPrefixOf_iff_prefix.mp some)
      · intro key' mem other
        rcases (least key' mem).eq_or_lt with same | lower
        · exact front (same ▸ other)
        · exact front (prefix_of_between (above key mem_cons_self) lower other)

/-- Of keys in order the last is taken, unless none is of the index. -/
theorem took_last (sorted : keys.Pairwise fun key key' => key.str ≤ key'.str)
    {limit : List Byte} (reach : e.pre <+: limit) (below : ∀ key ∈ keys, key.str < limit) :
    (keys.reverse.head?.elim e (took e) = e ∧ ∀ key ∈ keys, ¬e.pre <+: key.str) ∨
      ∃ key ∈ keys, e.pre <+: key.str ∧ keys.reverse.head?.elim e (took e) = took e key ∧
        ∀ key' ∈ keys, key'.str ≤ key.str := by
  rcases eq_nil_or_concat keys with rfl | ⟨front, key, rfl⟩
  · exact .inl ⟨rfl, fun key mem => absurd mem not_mem_nil⟩
  · rw [concat_eq_append] at sorted below ⊢
    have greatest : ∀ key' ∈ front ++ [key], key'.str ≤ key.str := by
      intro key' mem
      rcases mem_append.mp mem with earlier | last
      · exact (pairwise_append.mp sorted).2.2 key' earlier key (mem_singleton_self key)
      · rw [mem_singleton.mp last]
    have here : key ∈ front ++ [key] := mem_append_right _ (mem_singleton_self key)
    rw [reverse_append, reverse_singleton, singleton_append, head?_cons,
      Option.elim_some]
    by_cases start : e.pre <+: key.str
    · exact .inr ⟨key, here, start, rfl, greatest⟩
    · left
      constructor
      · exact if_neg fun some => start (List.isPrefixOf_iff_prefix.mp some)
      · intro key' mem other
        have above : ¬key.str < e.pre := fun lower =>
          not_lt_of_prefix other ((greatest key' mem).trans_lt lower)
        exact start (prefix_of_between above (below key here) reach)

/-- An entry of an index after it has looked for a term: it has the nearest of those that are left,
or there is none and another search changes nothing. -/
structure Settled (d : TermDict) (dir : Direction) (Left : List Byte → Prop) (e : ScanInfo) :
    Prop where
  none_left : e.isamP = 0 → ∀ t p, (t, p) ∈ d.termsAt e.pre → ¬Left t
  again : e.isamP = 0 → dir.find false e = e
  found : e.isamP ≠ 0 → (e.term, e.isamP) ∈ d.termsAt e.pre
  left : e.isamP ≠ 0 → Left e.term
  nearest : e.isamP ≠ 0 → ∀ t p, (t, p) ∈ d.termsAt e.pre → Left t → dir.nearer t e.term = false

theorem Settled.congr {dir : Direction} {Left Left' : List Byte → Prop}
    (settled : Settled d dir Left e)
    (same : ∀ t p, (t, p) ∈ d.termsAt e.pre → (Left' t ↔ Left t)) : Settled d dir Left' e where
  none_left none t p mem left := settled.none_left none t p mem ((same t p mem).mp left)
  again := settled.again
  found := settled.found
  left some := (same _ _ (settled.found some)).mpr (settled.left some)
  nearest some t p mem left := settled.nearest some t p mem ((same t p mem).mp left)

theorem took_of_front (front : e.pre <+: key.str) :
    took e key = { e with term := (termOf e.pre key).1, isamP := (termOf e.pre key).2 } :=
  if_pos (List.isPrefixOf_iff_prefix.mpr front)

theorem settled_of_took {dir : Direction} {Left : List Byte → Prop} {result : ScanInfo}
    (keys : List (Key Byte Byte)) (within : ∀ key ∈ keys, key ∈ d.allKeys)
    (left : ∀ key ∈ d.allKeys, ∀ t, key.str = e.pre ++ t → (key ∈ keys ↔ Left t))
    (none : e.isamP = 0) (again : result = e → dir.find false e = e)
    (taken : (result = e ∧ ∀ key ∈ keys, ¬e.pre <+: key.str) ∨
      ∃ key ∈ keys, e.pre <+: key.str ∧ result = took e key ∧
        ∀ key' ∈ keys, ∀ t, key'.str = e.pre ++ t →
          dir.nearer t (termOf e.pre key).1 = false) :
    Settled d dir Left result := by
  rcases taken with ⟨rfl, apart⟩ | ⟨key, mem, front, rfl, near⟩
  · refine ⟨?_, fun _ => again rfl, fun some => absurd none some, fun some => absurd none some,
      fun some => absurd none some⟩
    intro _ t p listed here
    obtain ⟨key, all, str, -⟩ := mem_termsAt.mp listed
    apply apart key ((left key all t str).mpr here)
    rw [str]
    exact prefix_append _ t
  · have listed : termOf e.pre key ∈ d.termsAt e.pre := termOf_mem (within key mem) front
    have nonzero : (termOf e.pre key).2 ≠ 0 := termsAt_nonzero listed
    rw [took_of_front front]
    refine ⟨fun zero => absurd zero nonzero, fun zero => absurd zero nonzero, fun _ => listed,
      ?_, ?_⟩
    · intro _
      exact (left key (within key mem) _ (str_of_front front).symm).mp mem
    · intro _ t p other here
      obtain ⟨key', all, str, -⟩ := mem_termsAt.mp other
      exact near key' ((left key' all t str).mpr here) t str

theorem findTerm_ready {before after : Nat} {place : Int} (some : e.isamP ≠ 0) :
    findTerm d.toDictionary before after place e = e :=
  if_neg some

theorem findTerm_one (none : e.isamP = 0) :
    findTerm d.toDictionary 0 1 1 e =
      (notBefore (e.pre ++ e.term) d.allKeys).head?.elim { e with posToSave := 1 }
        (took { e with posToSave := 1 }) := by
  rw [findTerm, if_pos none, dictScan_after]
  exact visit_one true { e with posToSave := 1 } _ rfl

theorem findTerm_two (none : e.isamP = 0) :
    findTerm d.toDictionary 0 2 1 e =
      (notBefore (e.pre ++ e.term) d.allKeys).tail.head?.elim { e with posToSave := 1 }
        (took { e with posToSave := 1 }) := by
  rw [findTerm, if_pos none, dictScan_after]
  exact visit_two { e with posToSave := 1 } _ rfl

theorem findTerm_before (none : e.isamP = 0) :
    findTerm d.toDictionary 1 0 (-1) e =
      (keysBefore (e.pre ++ e.term) d.allKeys).reverse.head?.elim { e with posToSave := -1 }
        (took { e with posToSave := -1 }) := by
  rw [findTerm, if_pos none, dictScan_before]
  exact visit_one false { e with posToSave := -1 } _ rfl

theorem findTerm_pre (before after : Nat) (place : Int) (e : ScanInfo)
    (sides : before = 0 ∧ after = 1 ∧ place = 1 ∨ before = 0 ∧ after = 2 ∧ place = 1 ∨
      before = 1 ∧ after = 0 ∧ place = -1) :
    (findTerm d.toDictionary before after place e).pre = e.pre := by
  have kept (e : ScanInfo) (key : Option (Key Byte Byte)) : (key.elim e (took e)).pre = e.pre := by
    cases key with
    | none => rfl
    | some key =>
      rw [Option.elim_some, took]
      split <;> rfl
  by_cases none : e.isamP = 0
  · rcases sides with ⟨rfl, rfl, rfl⟩ | ⟨rfl, rfl, rfl⟩ | ⟨rfl, rfl, rfl⟩
    · rw [findTerm_one none, kept]
    · rw [findTerm_two none, kept]
    · rw [findTerm_before none, kept]
  · rw [findTerm_ready none]

theorem notBefore_sorted (d : TermDict) (str : List Byte) :
    (notBefore str d.allKeys).Pairwise fun key key' => key.str ≤ key'.str :=
  d.keys_sorted.filter _

theorem keysBefore_sorted (d : TermDict) (str : List Byte) :
    (keysBefore str d.allKeys).Pairwise fun key key' => key.str ≤ key'.str :=
  d.keys_sorted.filter _

theorem mem_notBefore {str : List Byte} :
    key ∈ notBefore str d.allKeys ↔ key ∈ d.allKeys ∧ ¬key.str < str := by
  simp [notBefore]

theorem mem_keysBefore {str : List Byte} :
    key ∈ keysBefore str d.allKeys ↔ key ∈ d.allKeys ∧ key.str < str := by
  simp [keysBefore]

/-- Keys from a string of the index on are not before the index. -/
theorem not_before_pre (above : ¬key.str < pre ++ t) : ¬key.str < pre := by
  intro lower
  have not_less : ¬pre ++ t < pre :=
    not_lt_of_prefix (prefix_append pre t)
  have le : pre ≤ pre ++ t := not_lt.mp not_less
  exact above (lower.trans_le le)

theorem near_of_le {key key' : Key Byte Byte} (front : pre <+: key.str)
    (le : key.str ≤ key'.str) (str : key'.str = pre ++ t) :
    decide (t < (termOf pre key).1) = false := by
  rw [← str_of_front front, str, append_le] at le
  exact decide_eq_false le.not_gt

theorem near_of_ge {key key' : Key Byte Byte} (front : pre <+: key.str)
    (le : key'.str ≤ key.str) (str : key'.str = pre ++ t) :
    decide ((termOf pre key).1 < t) = false := by
  rw [← str_of_front front, str, append_le] at le
  exact decide_eq_false le.not_gt

/-- The first search forward finds the least term from the start on. -/
theorem forward_first (d : TermDict) (numEntries : Nat) (none : e.isamP = 0) :
    Settled d (forward d.toDictionary numEntries) (fun t => ¬t < e.term)
      ((forward d.toDictionary numEntries).find true e) := by
  have find_eq : (forward d.toDictionary numEntries).find true e =
      findTerm d.toDictionary 0 1 1 e := rfl
  rw [find_eq, findTerm_one none]
  have taken := took_first (e := { e with posToSave := 1 })
    (notBefore_sorted d (e.pre ++ e.term)) fun key mem => not_before_pre (mem_notBefore.mp mem).2
  apply settled_of_took (e := { e with posToSave := 1 }) (notBefore (e.pre ++ e.term) d.allKeys)
  · exact fun key mem => (mem_notBefore.mp mem).1
  · intro key all t str
    rw [mem_notBefore, str, append_lt]
    exact and_iff_right all
  · exact none
  · intro missed
    have apart : ∀ key ∈ notBefore (e.pre ++ e.term) d.allKeys, ¬e.pre <+: key.str := by
      rcases taken with ⟨-, apart⟩ | ⟨key, mem, front, took_eq, -⟩
      · exact apart
      · have nonzero := termsAt_nonzero (termOf_mem (mem_notBefore.mp mem).1 front)
        have zero := congrArg ScanInfo.isamP (took_eq.symm.trans missed)
        rw [took_of_front front] at zero
        exact absurd (zero.trans none) nonzero
    have two := findTerm_two (d := d) (e := { e with posToSave := 1 }) none
    have find_eq : (forward d.toDictionary numEntries).find false { e with posToSave := 1 } =
      findTerm d.toDictionary 0 2 1 { e with posToSave := 1 } := rfl
    rw [find_eq, two]
    cases second : (notBefore (e.pre ++ e.term) d.allKeys).tail.head? with
    | none => rfl
    | some key =>
      have mem : key ∈ notBefore (e.pre ++ e.term) d.allKeys :=
        mem_of_mem_tail (mem_of_mem_head? second)
      exact if_neg fun some => apart key mem (List.isPrefixOf_iff_prefix.mp some)
  · rcases taken with missed | ⟨key, mem, front, took_eq, least⟩
    · exact .inl missed
    · right
      refine ⟨key, mem, front, took_eq, ?_⟩
      intro key' mem' t str
      exact near_of_le front (least key' mem') str

theorem notBefore_cons {p : Nat} (mem : (t, p) ∈ d.termsAt pre) :
    ∃ first rest, notBefore (pre ++ t) d.allKeys = first :: rest ∧ first.str = pre ++ t ∧
      ∀ key, key ∈ rest ↔ key ∈ d.allKeys ∧ pre ++ t < key.str := by
  obtain ⟨own, listed, str, -⟩ := mem_termsAt.mp mem
  have here : own ∈ notBefore (pre ++ t) d.allKeys :=
    mem_notBefore.mpr ⟨listed, by rw [str]; exact lt_irrefl _⟩
  have sorted := notBefore_sorted d (pre ++ t)
  have once : ((notBefore (pre ++ t) d.allKeys).map Key.str).Nodup :=
    d.distinct.sublist (filter_sublist.map _)
  have members (key : Key Byte Byte) :
      key ∈ notBefore (pre ++ t) d.allKeys ↔ key ∈ d.allKeys ∧ ¬key.str < pre ++ t :=
    mem_notBefore
  cases known : notBefore (pre ++ t) d.allKeys with
  | nil =>
    rw [known] at here
    cases here
  | cons first rest =>
    rw [known] at here sorted once
    simp only [known] at members
    have first_str : first.str = pre ++ t := by
      have above : ¬first.str < pre ++ t := ((members first).mp mem_cons_self).2
      rcases mem_cons.mp here with rfl | later
      · exact str
      · have le := (pairwise_cons.mp sorted).1 own later
        rw [str] at le
        exact le_antisymm le (not_lt.mp above)
    refine ⟨first, rest, rfl, first_str, ?_⟩
    intro key
    rw [map_cons, nodup_cons, first_str] at once
    constructor
    · intro later
      obtain ⟨all, above⟩ := (members key).mp (.tail _ later)
      refine ⟨all, lt_of_le_of_ne (not_lt.mp above) ?_⟩
      intro same
      exact once.1 (same ▸ mem_map_of_mem later)
    · rintro ⟨all, lower⟩
      rcases mem_cons.mp ((members key).mpr ⟨all, lower.not_gt⟩) with rfl | later
      · exact absurd first_str.symm lower.ne
      · exact later

theorem forward_next (d : TermDict) (numEntries : Nat) (none : e.isamP = 0) {p : Nat}
    (here : (e.term, p) ∈ d.termsAt e.pre) :
    Settled d (forward d.toDictionary numEntries) (fun t => e.term < t)
      ((forward d.toDictionary numEntries).find false e) := by
  have find_eq (e : ScanInfo) : (forward d.toDictionary numEntries).find false e =
      findTerm d.toDictionary 0 2 1 e := rfl
  obtain ⟨first, rest, keys_eq, -, members⟩ := notBefore_cons here
  have sorted : rest.Pairwise fun key key' => key.str ≤ key'.str := by
    have all := notBefore_sorted d (e.pre ++ e.term)
    rw [keys_eq] at all
    exact (pairwise_cons.mp all).2
  have taken := took_first (e := { e with posToSave := 1 }) sorted fun key mem =>
    not_before_pre ((members key).mp mem).2.not_gt
  have search (e' : ScanInfo) (same : e' = { e with posToSave := 1 } ∨ e' = e) :
      findTerm d.toDictionary 0 2 1 e' =
        rest.head?.elim { e with posToSave := 1 } (took { e with posToSave := 1 }) := by
    rcases same with rfl | rfl
    · have two := findTerm_two (d := d) (e := { e with posToSave := 1 }) none
      rw [two]
      dsimp only
      rw [keys_eq, tail_cons]
    · rw [findTerm_two none, keys_eq, tail_cons]
  rw [find_eq, search e (.inr rfl)]
  apply settled_of_took (e := { e with posToSave := 1 }) rest
  · exact fun key mem => ((members key).mp mem).1
  · intro key all t str
    rw [members, str, append_lt]
    exact and_iff_right all
  · exact none
  · intro missed
    rw [find_eq, search _ (.inl rfl), missed]
  · rcases taken with missed | ⟨key, mem, front, took_eq, least⟩
    · exact .inl missed
    · right
      refine ⟨key, mem, front, took_eq, ?_⟩
      intro key' mem' t str
      exact near_of_le front (least key' mem') str

/-- A search back finds the greatest term before the one that the entry has. -/
theorem backward_next (d : TermDict) (first : Bool) (none : e.isamP = 0) :
    Settled d (backward d.toDictionary) (fun t => t < e.term)
      ((backward d.toDictionary).find first e) := by
  have find_eq (first : Bool) (e : ScanInfo) : (backward d.toDictionary).find first e =
      findTerm d.toDictionary 1 0 (-1) e := rfl
  have taken := took_last (e := { e with posToSave := -1 })
    (keysBefore_sorted d (e.pre ++ e.term)) (prefix_append e.pre e.term) fun key mem =>
      (mem_keysBefore.mp mem).2
  have search (e' : ScanInfo) (same : e' = { e with posToSave := -1 } ∨ e' = e) :
      findTerm d.toDictionary 1 0 (-1) e' =
        (keysBefore (e.pre ++ e.term) d.allKeys).reverse.head?.elim { e with posToSave := -1 }
          (took { e with posToSave := -1 }) := by
    rcases same with rfl | rfl
    · exact findTerm_before none
    · exact findTerm_before none
  rw [find_eq, search e (.inr rfl)]
  apply settled_of_took (e := { e with posToSave := -1 }) (keysBefore (e.pre ++ e.term) d.allKeys)
  · exact fun key mem => (mem_keysBefore.mp mem).1
  · intro key all t str
    rw [mem_keysBefore, str, append_lt]
    exact and_iff_right all
  · exact none
  · intro missed
    rw [find_eq, search _ (.inl rfl), missed]
  · rcases taken with missed | ⟨key, mem, front, took_eq, greatest⟩
    · exact .inl missed
    · right
      refine ⟨key, mem, front, took_eq, ?_⟩
      intro key' mem' t str
      exact near_of_ge front (greatest key' mem') str

end Zebra.Search
