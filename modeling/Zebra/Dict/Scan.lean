import Mathlib.Tactic.Linarith
import Zebra.Dict.Subtree

/-!
# Scanning a dictionary

`dict_scan` calls a client function with keys after and before a string, nearest first, until the
client function says so or as many as wanted have been given.
-/

namespace Zebra.Dict

open List Key

variable {α ι σ : Type}

/-- A client function, given a key, its info and the position: whether to stop, and the client. -/
abbrev ScanFunc (α ι σ : Type) := List α → List ι → Int → σ → Bool × σ

/-- A key is given to the client function, unless no more are wanted; keys before the string have
negative positions. -/
def offer (userfunc : ScanFunc α ι σ) (forward : Bool) (name : List α) (info : List ι)
    (state : Nat × σ) : Nat × σ :=
  if state.1 = 0 then
    state
  else
    let (stop, client) := userfunc name info (if forward then state.1 else -state.1) state.2
    (if stop then 0 else state.1 - 1, client)

variable (userfunc : ScanFunc α ι σ) (forward : Bool)

@[simp]
theorem offer_zero (name : List α) (info : List ι) (client : σ) :
    offer userfunc forward name info (0, client) = (0, client) :=
  rfl

/-- Keys are given to the client function one after the other. -/
def visit (pre : List α) (keys : List (Key α ι)) (state : Nat × σ) : Nat × σ :=
  (if forward then keys else keys.reverse).foldl
    (fun state key => offer userfunc forward (pre ++ key.str) key.info state) state

variable {userfunc forward}

@[simp]
theorem visit_nil (pre : List α) (state : Nat × σ) :
    visit userfunc forward pre [] state = state := by
  cases forward <;> rfl

theorem visit_append_forward (pre : List α) (keys more : List (Key α ι)) (state : Nat × σ) :
    visit userfunc true pre (keys ++ more) state =
      visit userfunc true pre more (visit userfunc true pre keys state) := by
  simp [visit]

theorem visit_append_backward (pre : List α) (keys more : List (Key α ι)) (state : Nat × σ) :
    visit userfunc false pre (keys ++ more) state =
      visit userfunc false pre keys (visit userfunc false pre more state) := by
  simp [visit]

@[simp]
theorem visit_singleton (pre : List α) (key : Key α ι) (state : Nat × σ) :
    visit userfunc forward pre [key] state =
      offer userfunc forward (pre ++ key.str) key.info state := by
  cases forward <;> rfl

theorem visit_zero (pre : List α) (keys : List (Key α ι)) (client : σ) :
    visit userfunc forward pre keys (0, client) = (0, client) := by
  unfold visit
  generalize (if forward then keys else keys.reverse) = list
  induction list with
  | nil => rfl
  | cons key rest ih => exact ih

theorem visit_under (pre : List α) (dc : α) (keys : List (Key α ι)) (state : Nat × σ) :
    visit userfunc forward pre (keys.map (under dc)) state =
      visit userfunc forward (pre ++ [dc]) keys state := by
  cases forward <;> simp [visit, ← map_reverse, foldl_map, under]

theorem visit_through (pre : List α) (ptr : Nat) (keys : List (Key α ι)) (state : Nat × σ) :
    visit userfunc forward pre (keys.map (through ptr)) state =
      visit userfunc forward pre keys state := by
  cases forward <;> simp [visit, ← map_reverse, foldl_map, through]

section

variable (userfunc forward) (page : Nat → Page α ι)

/-- An entry in `scan_direction`: the info of a key that ends at a sub page comes before those of
the sub page, or after them on the way back. -/
def scanEntry (below : List α → Nat → Nat × σ → Nat × σ) (pre : List α) (state : Nat × σ) :
    Entry α ι → Nat × σ
  | .tail str info => offer userfunc forward (pre ++ str) info state
  | .sub subptr dc info =>
    let state :=
      if forward ∧ info ≠ [] then offer userfunc forward (pre ++ [dc]) info state else state
    let state := if 0 < state.1 ∧ subptr ≠ 0 then below (pre ++ [dc]) subptr state else state
    if ¬forward ∧ info ≠ [] then offer userfunc forward (pre ++ [dc]) info state else state

/-- The entries of a page from `start` on, or back from it. -/
def fromStart (start : Option Nat) (entries : List (Entry α ι)) : List (Entry α ι) :=
  if forward then entries.drop (start.getD 0)
  else (entries.take (start.elim entries.length (· + 1))).reverse

/-- `scan_direction`; without a start it is all of the page. -/
def scanDirection : Nat → List α → Nat → Option Nat → Nat × σ → Nat × σ
  | 0, _, _, _, state => state
  | fuel + 1, pre, ptr, start, state =>
    (fromStart forward start (page ptr).entries).foldl
      (scanEntry userfunc forward (fun pre subptr => scanDirection fuel pre subptr none) pre)
      state

end

theorem scanEntry_eq {below : List α → Nat → Nat × σ → Nat × σ} {keys : Nat → List (Key α ι)}
    (same : ∀ pre subptr state,
      below pre subptr state = visit userfunc forward pre (keys subptr) state)
    (pre : List α) (entry : Entry α ι) (state : Nat × σ) :
    scanEntry userfunc forward below pre state entry =
      visit userfunc forward pre (entry.keys keys) state := by
  cases entry with
  | tail str info => rw [Entry.keys, visit_singleton]; rfl
  | sub subptr dc info =>
    have sub (state : Nat × σ) :
        (if 0 < state.1 ∧ subptr ≠ 0 then below (pre ++ [dc]) subptr state else state) =
          visit userfunc forward pre
            (if subptr = 0 then [] else (keys subptr).map (under dc)) state := by
      rcases eq_or_ne subptr 0 with zero | nonzero
      · rw [if_neg fun both => both.2 zero, if_pos zero, visit_nil]
      · rw [if_neg nonzero, visit_under, ← same]
        rcases Nat.eq_zero_or_pos state.1 with none | some
        · obtain ⟨count, client⟩ := state
          cases none
          rw [if_neg (by simp), same, visit_zero]
        · rw [if_pos ⟨some, nonzero⟩]
    have own (state : Nat × σ) :
        (if info ≠ [] then offer userfunc forward (pre ++ [dc]) info state else state) =
          visit userfunc forward pre
            (if info = [] then [] else [{ str := [dc], info, pages := [], atSub := true }])
            state := by
      rcases eq_or_ne info [] with empty | some
      · rw [if_neg fun some => some empty, if_pos empty, visit_nil]
      · rw [if_pos some, if_neg some, visit_singleton]
    cases forward with
    | true =>
      simp only [scanEntry, Entry.keys, true_and, not_true_eq_false, false_and, if_false, sub, own]
      rw [visit_append_forward]
    | false =>
      simp only [scanEntry, Entry.keys, Bool.false_eq_true, false_and, if_false, not_false_eq_true,
        true_and, sub, own]
      rw [visit_append_backward]

/-- Entries one after the other give the client their keys. -/
theorem scanEntries_eq {below : List α → Nat → Nat × σ → Nat × σ} {keys : Nat → List (Key α ι)}
    (same : ∀ pre subptr state,
      below pre subptr state = visit userfunc forward pre (keys subptr) state)
    (pre : List α) (entries : List (Entry α ι)) (state : Nat × σ) :
    (if forward then entries else entries.reverse).foldl
        (scanEntry userfunc forward below pre) state =
      visit userfunc forward pre (entries.flatMap (Entry.keys keys)) state := by
  cases forward with
  | true =>
    induction entries generalizing state with
    | nil => rfl
    | cons entry rest ih =>
      rw [flatMap_cons, visit_append_forward, ← scanEntry_eq same, ← ih]
      rfl
  | false =>
    induction entries generalizing state with
    | nil => rfl
    | cons entry rest ih =>
      rw [flatMap_cons, visit_append_backward, ← scanEntry_eq same, ← ih]
      simp

theorem fromStart_none (entries : List (Entry α ι)) :
    fromStart forward none entries = if forward then entries else entries.reverse := by
  cases forward <;> simp [fromStart]

/-- `scan_direction` on a whole page gives the client all keys below it. -/
theorem scanDirection_none (page : Nat → Page α ι) (fuel : Nat) (pre : List α) (ptr : Nat)
    (state : Nat × σ) :
    scanDirection userfunc forward page fuel pre ptr none state =
      visit userfunc forward pre (keysAt page fuel ptr) state := by
  induction fuel generalizing pre ptr state with
  | zero =>
    rw [keysAt, visit_nil]
    rfl
  | succ fuel ih =>
    rw [scanDirection, fromStart_none, scanEntries_eq (fun pre subptr state => ih pre subptr state),
      keysAt, visit_through]

/-- `scan_direction` from an entry on gives the client the keys of these entries. -/
theorem scanDirection_forward (page : Nat → Page α ι) (fuel : Nat) (pre : List α) (ptr start : Nat)
    (state : Nat × σ) :
    scanDirection userfunc true page (fuel + 1) pre ptr (some start) state =
      visit userfunc true pre
        (entriesKeys page fuel ((page ptr).entries.drop start)) state := by
  have below : ∀ pre subptr (state : Nat × σ),
      scanDirection userfunc true page fuel pre subptr none state =
        visit userfunc true pre (keysAt page fuel subptr) state :=
    fun pre subptr state => scanDirection_none page fuel pre subptr state
  exact scanEntries_eq below pre ((page ptr).entries.drop start) state

theorem scanDirection_backward (page : Nat → Page α ι) (fuel : Nat) (pre : List α)
    (ptr start : Nat) (state : Nat × σ) :
    scanDirection userfunc false page (fuel + 1) pre ptr (some start) state =
      visit userfunc false pre
        (entriesKeys page fuel ((page ptr).entries.take (start + 1))) state := by
  have below : ∀ pre subptr (state : Nat × σ),
      scanDirection userfunc false page fuel pre subptr none state =
        visit userfunc false pre (keysAt page fuel subptr) state :=
    fun pre subptr state => scanDirection_none page fuel pre subptr state
  exact scanEntries_eq below pre ((page ptr).entries.take (start + 1)) state

section

variable [LinearOrder α]

/-- The comparison of an entry with a string in `dict_scan_r`. -/
def cmpEntry (str : List α) : Entry α ι → Ordering
  | .tail info _ => if info = str then .eq else if info < str then .lt else .gt
  | .sub _ dc _ =>
    match str with
    | [] => .gt
    | c :: _ => if dc = c then .eq else if dc < c then .lt else .gt

/-- The search of `dict_scan_r`: where it ends and how the last comparison came out; without a hit
the place is that of the first entry after the string. -/
def probe (cmp : Entry α ι → Ordering) (entries : List (Entry α ι)) :
    Nat → Nat → Nat → Nat → Ordering → Nat × Ordering
  | 0, _, _, mid, last => (mid, last)
  | fuel + 1, low, top, mid, last =>
    if low < top then
      let mid := (low + (top - 1)) / 2
      match entries[mid]?.map cmp with
      | none => (mid, last)
      | some .eq => (mid, .eq)
      | some .lt => probe cmp entries fuel (mid + 1) top mid .lt
      | some .gt => probe cmp entries fuel low mid mid .gt
    else
      (if last = .lt then mid + 1 else mid, last)

/-- `dict_scan_r` at the entry that its search has hit, with `below` for the sub page; the keys that
are still wanted before and after the string, and the client. -/
def scanHit (userfunc : ScanFunc α ι σ) (page : Nat → Page α ι) (fuel : Nat)
    (below : List α → List α → Nat → Nat → Nat × σ → Nat × Nat × σ)
    (str pre : List α) (before : Nat) (state : Nat × σ) : Entry α ι → Nat × Nat × σ
  | .tail _ info => (before, offer userfunc true (pre ++ str) info state)
  | .sub subptr dc info =>
    if str.tail = [] then
      let state := if info ≠ [] then offer userfunc true (pre ++ str) info state else state
      (before,
        if 0 < state.1 ∧ subptr ≠ 0 then
          scanDirection userfunc true page fuel (pre ++ str) subptr none state
        else
          state)
    else
      let after := if subptr ≠ 0 then below str.tail (pre ++ [dc]) subptr before state
        else (before, state)
      if info ≠ [] then
        let own := offer userfunc false (pre ++ [dc]) info (after.1, after.2.2)
        (own.1, after.2.1, own.2)
      else
        after

/-- The end of `dict_scan_r`: the entries of the page from `start` on, and those before `mid`. -/
def scanRest (userfunc : ScanFunc α ι σ) (page : Nat → Page α ι) (fuel : Nat) (pre : List α)
    (ptr mid start : Nat) (found : Nat × Nat × σ) : Nat × Nat × σ :=
  let after :=
    if 0 < found.2.1 then
      scanDirection userfunc true page (fuel + 1) pre ptr (some start) found.2
    else
      found.2
  let before :=
    if 0 < found.1 ∧ 0 < mid then
      scanDirection userfunc false page (fuel + 1) pre ptr (some (mid - 1)) (found.1, after.2)
    else
      (found.1, after.2)
  (before.1, after.1, before.2)

/-- `dict_scan_r` on a page. -/
def dictScanPage (userfunc : ScanFunc α ι σ) (page : Nat → Page α ι) (fuel : Nat)
    (below : List α → List α → Nat → Nat → Nat × σ → Nat × Nat × σ)
    (str pre : List α) (ptr before : Nat) (state : Nat × σ) : Nat × Nat × σ :=
  let entries := (page ptr).entries
  let found := probe (cmpEntry str) entries (entries.length + 1) 0 entries.length 0 .eq
  let hit := if found.2 = .eq then entries[found.1]? else none
  scanRest userfunc page fuel pre ptr found.1 (if found.2 = .eq then found.1 + 1 else found.1)
    (hit.elim (before, state) (scanHit userfunc page fuel below str pre before state))

def dictScanR (userfunc : ScanFunc α ι σ) (page : Nat → Page α ι) :
    Nat → List α → List α → Nat → Nat → Nat × σ → Nat × Nat × σ
  | 0, _, _, _, before, state => (before, state)
  | fuel + 1, str, pre, ptr, before, state =>
    dictScanPage userfunc page fuel (dictScanR userfunc page fuel) str pre ptr before state

/-- `dict_scan` on a dictionary that is at most `depth` pages deep. -/
def dictScan (userfunc : ScanFunc α ι σ) (dict : DictStruct α ι) (depth : Nat) (str : List α)
    (before after : Nat) (client : σ) : σ :=
  if dict.root = 0 then client
  else (dictScanR userfunc dict.page depth str [] dict.root before (after, client)).2.2

theorem cmp_tail_lt {str info : List α} {infos : List ι} :
    cmpEntry str (.tail info infos) = .lt ↔ info < str := by
  rw [cmpEntry]
  split
  · next same => simp [same]
  · split
    · next lower => simp [lower]
    · next above => simp [above]

theorem cmp_tail_gt {str info : List α} {infos : List ι} :
    cmpEntry str (.tail info infos) = .gt ↔ str < info := by
  rw [cmpEntry]
  split
  · next same => simp [same]
  · next other =>
    split
    · next lower => simp [lower.le]
    · next above => simpa using lt_of_le_of_ne (not_lt.mp above) (Ne.symm other)

theorem cmp_sub_lt {str : List α} {subptr : Nat} {dc : α} {infos : List ι} :
    cmpEntry str (.sub subptr dc infos) = .lt ↔ ∃ c ∈ str.head?, dc < c := by
  cases str with
  | nil => simp [cmpEntry]
  | cons c str =>
    rcases lt_trichotomy dc c with lower | rfl | upper
    · simp [cmpEntry, lower, lower.ne]
    · simp [cmpEntry]
    · simp [cmpEntry, upper.ne', upper.le]

theorem cmp_sub_gt {str : List α} {subptr : Nat} {dc : α} {infos : List ι} :
    cmpEntry str (.sub subptr dc infos) = .gt ↔ ∀ c ∈ str.head?, c < dc := by
  cases str with
  | nil => simp [cmpEntry]
  | cons c str =>
    rcases lt_trichotomy dc c with lower | rfl | upper
    · simp [cmpEntry, lower, lower.ne, lower.le]
    · simp [cmpEntry]
    · simp [cmpEntry, upper.ne', upper.le, upper]

theorem lt_of_heads {s t : List α} {c d : α} (first : c ∈ s.head?) (second : d ∈ t.head?)
    (lower : c < d) : s < t := by
  cases s with
  | nil => cases first
  | cons c' s =>
    cases t with
    | nil => cases second
    | cons d' t =>
      cases first
      cases second
      exact cons_lt_cons_iff.mpr (Or.inl lower)

theorem heads_le {s t : List α} {c d : α} (first : c ∈ s.head?) (second : d ∈ t.head?)
    (le : s ≤ t) : c ≤ d :=
  not_lt.mp fun lower => absurd (lt_of_heads second first lower) (not_lt.mpr le)

theorem Entry.Before.cmp {str : List α} {entry entry' : Entry α ι}
    (before : entry.Before entry') :
    (cmpEntry str entry' ≠ .gt → cmpEntry str entry = .lt) ∧
      (cmpEntry str entry ≠ .lt → cmpEntry str entry' = .gt) := by
  cases entry with
  | tail info infos =>
    cases entry' with
    | tail info' infos' =>
      have lower : info < info' := before
      simp only [ne_eq, cmp_tail_gt, cmp_tail_lt]
      exact ⟨fun above => lower.trans_le (not_lt.mp above), fun above =>
        (not_lt.mp above).trans_lt lower⟩
    | sub subptr dc infos' =>
      simp only [ne_eq, cmp_tail_lt, cmp_sub_gt]
      constructor
      · intro above
        push Not at above
        obtain ⟨c, head, le⟩ := above
        cases info with
        | nil =>
          cases str with
          | nil => cases head
          | cons c' str => exact nil_lt_cons _ _
        | cons d info => exact lt_of_heads rfl head ((before d rfl).trans_le le)
      · intro above c head
        cases info with
        | nil =>
          cases str with
          | nil => cases head
          | cons c' str => exact absurd (nil_lt_cons _ _) above
        | cons d info => exact (heads_le head rfl (not_lt.mp above)).trans_lt (before d rfl)
  | sub subptr dc infos =>
    cases entry' with
    | tail info' infos' =>
      obtain ⟨c, head, lower⟩ := before
      simp only [ne_eq, cmp_tail_gt, cmp_sub_lt]
      constructor
      · intro above
        cases str with
        | nil =>
          cases info' with
          | nil => cases head
          | cons c' info' => exact absurd (nil_lt_cons _ _) above
        | cons e str => exact ⟨e, rfl, lower.trans_le (heads_le head rfl (not_lt.mp above))⟩
      · intro above
        push Not at above
        cases str with
        | nil =>
          cases info' with
          | nil => cases head
          | cons c' info' => exact nil_lt_cons _ _
        | cons e str => exact lt_of_heads rfl head ((above e rfl).trans_lt lower)
    | sub subptr' dc' infos' =>
      have lower : dc < dc' := before
      simp only [ne_eq, cmp_sub_gt, cmp_sub_lt]
      constructor
      · intro above
        push Not at above
        obtain ⟨c, head, le⟩ := above
        exact ⟨c, head, lower.trans_le le⟩
      · intro above c head
        push Not at above
        exact (above c head).trans_lt lower

/-- The place where the search ends parts the entries. -/
structure Parts (cmp : Entry α ι → Ordering) (entries : List (Entry α ι)) (mid : Nat)
    (last : Ordering) : Prop where
  less : ∀ entry ∈ entries.take mid, cmp entry = .lt
  hit : last = .eq → entries = [] ∨ ∃ entry, entries[mid]? = some entry ∧ cmp entry = .eq
  miss : last ≠ .eq → ∀ entry ∈ entries.drop mid, cmp entry = .gt
  greater : ∀ entry ∈ entries.drop (mid + 1), cmp entry = .gt

omit [LinearOrder α] in
theorem probe_parts {cmp : Entry α ι → Ordering} {entries : List (Entry α ι)}
    (ordered : entries.Pairwise fun entry entry' =>
      (cmp entry' ≠ .gt → cmp entry = .lt) ∧ (cmp entry ≠ .lt → cmp entry' = .gt))
    {fuel low top mid : Nat} {last : Ordering} (enough : top < low + fuel) (le : low ≤ top)
    (inside : top ≤ entries.length)
    (less : ∀ i (within : i < entries.length), i < low → cmp entries[i] = .lt)
    (greater : ∀ i (within : i < entries.length), top ≤ i → cmp entries[i] = .gt)
    (at_lt : last = .lt → mid + 1 = low) (at_gt : last = .gt → mid = top)
    (at_eq : last = .eq → mid = 0 ∧ low = 0 ∧ top = entries.length) :
    Parts cmp entries (probe cmp entries fuel low top mid last).1
      (probe cmp entries fuel low top mid last).2 := by
  have parts_of {place : Nat} {c : Ordering}
      (before : ∀ i (within : i < entries.length), i < place → cmp entries[i] = .lt)
      (after : ∀ i (within : i < entries.length), place < i → cmp entries[i] = .gt)
      (hit : c = .eq → entries = [] ∨ ∃ entry, entries[place]? = some entry ∧ cmp entry = .eq)
      (miss : c ≠ .eq → ∀ (within : place < entries.length), cmp entries[place] = .gt) :
      Parts cmp entries place c :=
    { less := by
        intro entry mem
        obtain ⟨i, within, rfl⟩ := mem_take_iff_getElem.mp mem
        exact before i (by omega) (by omega)
      hit := hit
      miss := by
        intro other entry mem
        obtain ⟨i, within, rfl⟩ := mem_drop_iff_getElem.mp mem
        rcases Nat.eq_zero_or_pos i with rfl | positive
        · exact miss other (by omega)
        · exact after (place + i) (by omega) (by omega)
      greater := by
        intro entry mem
        obtain ⟨i, within, rfl⟩ := mem_drop_iff_getElem.mp mem
        exact after (place + 1 + i) (by omega) (by omega) }
  induction fuel generalizing low top mid last with
  | zero => omega
  | succ fuel ih =>
    rw [probe]
    split
    · next room =>
      have within : (low + (top - 1)) / 2 < entries.length := by omega
      have pairs := pairwise_iff_getElem.mp ordered
      dsimp only
      rw [List.getElem?_eq_getElem within, Option.map_some]
      split
      · next none => cases none
      · next hit =>
        have here := Option.some.inj hit
        dsimp only
        refine parts_of ?_ ?_ ?_ ?_
        · intro i inside' lower
          exact (pairs i _ inside' within lower).1 (by rw [here]; decide)
        · intro i inside' upper
          exact (pairs _ i within inside' upper).2 (by rw [here]; decide)
        · exact fun _ => Or.inr ⟨_, List.getElem?_eq_getElem within, here⟩
        · exact fun other => absurd rfl other
      · next lower =>
        have here := Option.some.inj lower
        apply ih
        · omega
        · omega
        · exact inside
        · intro i inside' lower
          rcases Nat.lt_or_ge i ((low + (top - 1)) / 2) with before | after
          · exact (pairs i _ inside' within before).1 (by rw [here]; decide)
          · have same : i = (low + (top - 1)) / 2 := by omega
            subst same
            exact here
        · exact greater
        · exact fun _ => rfl
        · exact fun other => nomatch other
        · exact fun other => nomatch other
      · next upper =>
        have here := Option.some.inj upper
        apply ih
        · omega
        · omega
        · omega
        · exact less
        · intro i inside' upper
          rcases Nat.lt_or_ge ((low + (top - 1)) / 2) i with after | before
          · exact (pairs _ i within inside' after).2 (by rw [here]; decide)
          · have same : i = (low + (top - 1)) / 2 := by omega
            subst same
            exact here
        · exact fun other => nomatch other
        · exact fun _ => rfl
        · exact fun other => nomatch other
    · next full =>
      have same : low = top := by omega
      dsimp only
      refine parts_of ?_ ?_ ?_ ?_
      · intro i within lower
        apply less i within
        cases last with
        | lt =>
          rw [if_pos rfl] at lower
          have := at_lt rfl
          omega
        | gt =>
          rw [if_neg (by decide)] at lower
          have := at_gt rfl
          omega
        | eq =>
          rw [if_neg (by decide)] at lower
          have := at_eq rfl
          omega
      · intro i within upper
        apply greater i within
        cases last with
        | lt =>
          rw [if_pos rfl] at upper
          have := at_lt rfl
          omega
        | gt =>
          rw [if_neg (by decide)] at upper
          have := at_gt rfl
          omega
        | eq =>
          have := at_eq rfl
          omega
      · rintro rfl
        have := at_eq rfl
        exact Or.inl (eq_nil_of_length_eq_zero (by omega))
      · intro other within
        cases last with
        | lt =>
          have := at_lt rfl
          exact greater _ within (by rw [if_pos rfl]; omega)
        | gt =>
          have := at_gt rfl
          exact greater _ within (by rw [if_neg (by decide)]; omega)
        | eq => exact absurd rfl other

omit [LinearOrder α] in
theorem head_of_sub {below : Nat → List (Key α ι)} {subptr : Nat} {dc : α} {infos : List ι}
    {key : Key α ι} (mem : key ∈ (Entry.sub subptr dc infos).keys below) :
    dc ∈ key.str.head? := by
  rw [Entry.keys] at mem
  rcases mem_append.mp mem with own | under
  · split at own
    · cases own
    · obtain rfl := mem_singleton.mp own
      rfl
  · split at under
    · cases under
    · obtain ⟨key, -, rfl⟩ := mem_map.mp under
      rfl

theorem keys_of_lt {str : List α} {entry : Entry α ι} (lower : cmpEntry str entry = .lt)
    {below : Nat → List (Key α ι)} {key : Key α ι} (mem : key ∈ entry.keys below) :
    key.str < str := by
  cases entry with
  | tail info infos =>
    obtain rfl := mem_singleton.mp mem
    exact cmp_tail_lt.mp lower
  | sub subptr dc infos =>
    obtain ⟨c, head, less⟩ := cmp_sub_lt.mp lower
    have starts : dc ∈ key.str.head? := head_of_sub mem
    exact lt_of_heads starts head less

theorem keys_of_gt {str : List α} {entry : Entry α ι} (upper : cmpEntry str entry = .gt)
    {below : Nat → List (Key α ι)} {key : Key α ι} (mem : key ∈ entry.keys below) :
    str < key.str := by
  cases entry with
  | tail info infos =>
    obtain rfl := mem_singleton.mp mem
    exact cmp_tail_gt.mp upper
  | sub subptr dc infos =>
    have starts : dc ∈ key.str.head? := head_of_sub mem
    cases str with
    | nil =>
      cases known : key.str with
      | nil =>
        rw [known] at starts
        cases starts
      | cons c rest => exact nil_lt_cons _ _
    | cons c str => exact lt_of_heads rfl starts (cmp_sub_gt.mp upper c rfl)

def notBefore (str : List α) (keys : List (Key α ι)) : List (Key α ι) :=
  keys.filter fun key => ¬key.str < str

def keysBefore (str : List α) (keys : List (Key α ι)) : List (Key α ι) :=
  keys.filter fun key => key.str < str

theorem notBefore_append (str : List α) (keys more : List (Key α ι)) :
    notBefore str (keys ++ more) = notBefore str keys ++ notBefore str more :=
  filter_append _ _

theorem keysBefore_append (str : List α) (keys more : List (Key α ι)) :
    keysBefore str (keys ++ more) = keysBefore str keys ++ keysBefore str more :=
  filter_append _ _

theorem notBefore_through (str : List α) (ptr : Nat) (keys : List (Key α ι)) :
    notBefore str (keys.map (through ptr)) = (notBefore str keys).map (through ptr) :=
  filter_map

theorem keysBefore_through (str : List α) (ptr : Nat) (keys : List (Key α ι)) :
    keysBefore str (keys.map (through ptr)) = (keysBefore str keys).map (through ptr) :=
  filter_map

theorem under_lt (dc : α) (str : List α) (key : Key α ι) :
    (key.under dc).str < dc :: str ↔ key.str < str := by
  rw [under, cons_lt_cons_iff]
  simp

theorem notBefore_under (dc : α) (str : List α) (keys : List (Key α ι)) :
    notBefore (dc :: str) (keys.map (under dc)) =
      (notBefore str keys).map (under dc) := by
  rw [notBefore, filter_map, notBefore]
  congr 1
  apply filter_congr
  intro key _
  simp only [Function.comp_apply, under_lt]

theorem keysBefore_under (dc : α) (str : List α) (keys : List (Key α ι)) :
    keysBefore (dc :: str) (keys.map (under dc)) =
      (keysBefore str keys).map (under dc) := by
  rw [keysBefore, filter_map, keysBefore]
  congr 1
  apply filter_congr
  intro key _
  simp only [Function.comp_apply, under_lt]

section

variable {str : List α} {page : Nat → Page α ι} {depth : Nat} {entries : List (Entry α ι)}

theorem notBefore_of_lt (lower : ∀ entry ∈ entries, cmpEntry str entry = .lt) :
    notBefore str (entriesKeys page depth entries) = [] := by
  rw [notBefore, filter_eq_nil_iff]
  intro key mem
  obtain ⟨entry, listed, here⟩ := mem_flatMap.mp mem
  simpa using keys_of_lt (lower entry listed) here

theorem keysBefore_of_lt (lower : ∀ entry ∈ entries, cmpEntry str entry = .lt) :
    keysBefore str (entriesKeys page depth entries) = entriesKeys page depth entries := by
  rw [keysBefore, filter_eq_self]
  intro key mem
  obtain ⟨entry, listed, here⟩ := mem_flatMap.mp mem
  simpa using keys_of_lt (lower entry listed) here

theorem notBefore_of_gt (upper : ∀ entry ∈ entries, cmpEntry str entry = .gt) :
    notBefore str (entriesKeys page depth entries) = entriesKeys page depth entries := by
  rw [notBefore, filter_eq_self]
  intro key mem
  obtain ⟨entry, listed, here⟩ := mem_flatMap.mp mem
  simpa using (keys_of_gt (upper entry listed) here).le

theorem keysBefore_of_gt (upper : ∀ entry ∈ entries, cmpEntry str entry = .gt) :
    keysBefore str (entriesKeys page depth entries) = [] := by
  rw [keysBefore, filter_eq_nil_iff]
  intro key mem
  obtain ⟨entry, listed, here⟩ := mem_flatMap.mp mem
  simpa using (keys_of_gt (upper entry listed) here).le

end

end

end Zebra.Dict
