import Zebra.Dict.Exact
import Zebra.Keys.SuCodec
import Zebra.Search.Scan

/-!
# Ordinals in the dictionary

`orddict.c`: the keys of an index are its terms behind the code of its ordinal.  As no code is a
prefix of another, subtree deletion and scans with the code of an ordinal stay among its keys.
-/

namespace Zebra.Search

open List

open Dict (Dictionary DictStruct Key dictScan dictDeleteSubtree visit)
open SuCodec (keySUDecode)

/-- `zebra_mk_ord_str`; none where the assertion fails. -/
def zebraMkOrdStr (ord : Int) (str : List Byte) : Option (List Byte) :=
  if 0 ≤ ord then some (SuCodec.keySUEncode ord ++ str) else none

def dictDeleteSubtreeOrd {ι : Type} (fuel : Nat) (d : DictStruct Byte ι) (ord : Int) :
    Option (DictStruct Byte ι × Nat) :=
  (zebraMkOrdStr ord []).bind (dictDeleteSubtree fuel d)

def OfOrdinal {ι : Type} (ord : SuCodec.Ordinal) (key : Key Byte ι) : Prop := ord.code <+: key.str

theorem zebraMkOrdStr_code {ord : SuCodec.Ordinal} (given : 1 ≤ ord.val) (str : List Byte) :
    zebraMkOrdStr ord.val str = some (ord.code ++ str) :=
  if_pos (by omega)

theorem ofOrdinal_iff {ι : Type} {a b : SuCodec.Ordinal} {t : List Byte} {key : Key Byte ι}
    (built : key.str = b.code ++ t) : OfOrdinal a key ↔ a = b := by
  rw [OfOrdinal, built]
  exact SuCodec.Ordinal.code_readsBack.front_iff

/-- What a deletion of an ordinal does to the keys of a dictionary. -/
structure OrdDeleted {ι : Type} (a : SuCodec.Ordinal) (d d' : Dictionary Byte ι) : Prop where
  gone : ∀ key ∈ d.keys d.depth, key ∉ d'.keys d'.depth → OfOrdinal a key
  stays : ∀ b t, b ≠ a → ∀ key ∈ d.keys d.depth, key.str = b.code ++ t → key ∈ d'.keys d'.depth
  left : ∀ key ∈ d'.keys d'.depth, key ∈ d.keys d.depth ∧ ¬ OfOrdinal a key

variable {a : SuCodec.Ordinal}

theorem dictDeleteSubtreeOrd_deleted {ι : Type} (d : Dictionary Byte ι)
    (given : 1 ≤ a.val) {fuel : Nat} (enough : d.depth ≤ fuel) :
    ∃ (d' : Dictionary Byte ι) (r : Nat) (infos : List (List ι)),
      dictDeleteSubtreeOrd fuel d.toDictStruct a.val = some (d'.toDictStruct, r) ∧
      OrdDeleted a d d' ∧ d'.calls = d.calls ++ infos ∧
      infos.length = ((d.keys d.depth).filter fun key => a.code <+: key.str).length := by
  have run : dictDeleteSubtreeOrd fuel d.toDictStruct a.val =
      dictDeleteSubtree fuel d.toDictStruct a.code := by
    rw [dictDeleteSubtreeOrd, zebraMkOrdStr_code given, append_nil, Option.bind_some]
  obtain ⟨d', r, infos, told, freed, done, keys, calls, perm, -⟩ :=
    Dict.dictDeleteSubtree_deleted d a.code fuel enough fun empty => absurd empty a.code_ne_nil
  refine ⟨d', r, infos, run.trans done, ⟨?_, ?_, ?_⟩, calls, ?_⟩
  · intro key mem lost
    by_contra other
    have other : ¬ a.code <+: key.str := other
    exact lost (keys ▸ mem_filter.mpr ⟨mem, decide_eq_true other⟩)
  · intro b t differ key mem built
    refine keys ▸ mem_filter.mpr ⟨mem, decide_eq_true fun front => ?_⟩
    exact differ ((ofOrdinal_iff built).mp front).symm
  · intro key mem
    rw [keys] at mem
    obtain ⟨before, other⟩ := mem_filter.mp mem
    have other : ¬ a.code <+: key.str := of_decide_eq_true other
    exact ⟨before, other⟩
  · rw [perm.length_eq, length_map]

/-- `delete_SU_handle`, which does not look at what the deletion returns. -/
def deleteSUHandle {ι : Type} (fuel : Nat) (d : DictStruct Byte ι) (ord : SuCodec.Ordinal) :
    Option (DictStruct Byte ι) :=
  (dictDeleteSubtree fuel d ord.code).map Prod.fst

/-- `zebraExplain_trav_ord` as `zebra_drop_database` calls it, on the ordinals of the database. -/
def zebraExplainTravOrd {ι : Type} (fuel : Nat) (SUInfo : List SuCodec.Ordinal)
    (d : DictStruct Byte ι) : Option (DictStruct Byte ι) :=
  SUInfo.foldlM (deleteSUHandle fuel) d

/-- Dropping a database gives the handler each key of its ordinals once and leaves all others. -/
theorem trav_ord_drops {ι : Type} (ords : List SuCodec.Ordinal) (d : Dictionary Byte ι) :
    ∃ (d' : Dictionary Byte ι) (infos : List (List ι)) (told : Key Byte ι → List ι),
      zebraExplainTravOrd d.depth ords d.toDictStruct = some d'.toDictStruct ∧
      (∀ b t key, key.str = b.code ++ t →
        (key ∈ d'.keys d'.depth ↔ key ∈ d.keys d.depth ∧ b ∉ ords)) ∧
      d'.calls = d.calls ++ infos ∧
      infos.Perm (((d.keys d.depth).filter fun key => ∃ a ∈ ords, a.code <+: key.str).map told) ∧
      ∀ key, (∀ a ∈ ords, key.str ≠ a.code) → told key = key.info := by
  induction ords generalizing d with
  | nil => exact ⟨d, [], Key.info, rfl, by simp, by simp, by simp, fun _ _ => rfl⟩
  | cons a ords ih =>
    obtain ⟨d₁, r, infos₁, told₁, -, depth, here, keys, calls₁, perm₁, info₁, -⟩ :=
      Dict.dictDeleteSubtree_depth d a.code d.depth le_rfl fun empty => absurd empty a.code_ne_nil
    obtain ⟨d', infos₂, told₂, rest, left, calls₂, perm₂, info₂⟩ := ih d₁
    refine ⟨d', infos₁ ++ infos₂, fun key => if a.code <+: key.str then told₁ key else told₂ key,
      ?_, ?_, by rw [calls₂, calls₁, append_assoc], ?_, ?_⟩
    · rw [zebraExplainTravOrd, foldlM_cons, deleteSUHandle, here, ← depth]
      exact rest
    · intro b t key built
      have front : a.code <+: key.str ↔ a = b := ofOrdinal_iff built
      rw [left b t key built, keys, mem_filter, mem_cons, decide_eq_true_iff, front]
      tauto
    · have parts := filter_append_perm (fun key : Key Byte ι => a.code <+: key.str)
        ((d.keys d.depth).filter fun key => ∃ b ∈ a :: ords, b.code <+: key.str)
      refine Perm.trans ?_ (parts.map _)
      rw [map_append, filter_filter, filter_filter]
      refine (perm₁.trans (.of_eq ?_)).append (perm₂.trans (.of_eq ?_))
      · refine (map_congr_left fun key mem => (if_pos ?_).symm).trans (congrArg _ (filter_congr ?_))
        · exact of_decide_eq_true (mem_filter.mp mem).2
        · simp +contextual
      · rw [keys]
        refine (map_congr_left fun key mem => (if_neg ?_).symm).trans (congrArg _ ?_)
        · exact of_decide_eq_true (mem_filter.mp (mem_filter.mp mem).1).2
        · rw [filter_filter]
          refine filter_congr fun key _ => ?_
          by_cases front : a.code <+: key.str <;> simp [front]
    · intro key apart
      dsimp only
      split
      · exact info₁ key fun same => absurd same (apart a mem_cons_self)
      · exact info₂ key fun b mem => apart b (mem_cons_of_mem _ mem)

/-- What a scan for an ordinal has found: nothing, or a key of the ordinal. -/
def Found {ι : Type} (isamP : List ι → Nat) (a : SuCodec.Ordinal) (keys : List (Key Byte ι))
    (term term' : List Byte) (p p' : Nat) : Prop :=
  (term' = term ∧ p' = p) ∨ ∃ key ∈ keys, key.str = a.code ++ term' ∧ p' = isamP key.info

theorem scanHandle2_found {keys : List (Key Byte Byte)} {key : Key Byte Byte}
    (listed : key ∈ keys) (pos : Int) {e client : ScanInfo} (pre : client.pre = a.code)
    (found : Found isamPOf a keys e.term client.term e.isamP client.isamP) :
    (scanHandle2 key.str key.info pos client).2.pre = a.code ∧
      Found isamPOf a keys e.term (scanHandle2 key.str key.info pos client).2.term e.isamP
        (scanHandle2 key.str key.info pos client).2.isamP := by
  unfold scanHandle2
  split
  · exact ⟨pre, found⟩
  · split
    · rename_i front
      rw [List.isPrefixOf_iff_prefix, pre] at front
      refine ⟨pre, .inr ⟨key, listed, ?_, rfl⟩⟩
      rw [pre]
      exact (prefix_iff_eq_append.mp front).symm
    · exact ⟨pre, found⟩

structure Client (a : SuCodec.Ordinal) (keys : List (Key Byte Byte)) (e client : ScanInfo) :
    Prop where
  pre : client.pre = a.code
  found : Found isamPOf a keys e.term client.term e.isamP client.isamP

theorem offer_client {keys : List (Key Byte Byte)} {key : Key Byte Byte}
    (listed : key ∈ keys) (forward : Bool) {e : ScanInfo} {state : Nat × ScanInfo}
    (client : Client a keys e state.2) :
    Client a keys e (Dict.offer scanHandle2 forward ([] ++ key.str) key.info state).2 := by
  unfold Dict.offer
  split
  · exact client
  · obtain ⟨pre, found⟩ := scanHandle2_found listed _ client.pre client.found
    exact ⟨pre, found⟩

theorem visit_client {keys visited : List (Key Byte Byte)}
    (among : ∀ key ∈ visited, key ∈ keys) (forward : Bool) (wanted : Nat) {e : ScanInfo}
    (pre : e.pre = a.code) :
    Client a keys e (visit scanHandle2 forward [] visited (wanted, e)).2 := by
  unfold visit
  have among' : ∀ key ∈ if forward then visited else visited.reverse, key ∈ keys := by
    cases forward with
    | true => exact among
    | false => exact fun key mem => among key (mem_reverse.mp mem)
  generalize (if forward = true then visited else visited.reverse) = list at *
  have start : Client a keys e ((wanted, e) : Nat × ScanInfo).2 := ⟨pre, .inl ⟨rfl, rfl⟩⟩
  generalize ((wanted, e) : Nat × ScanInfo) = state at start ⊢
  induction list generalizing state with
  | nil => exact start
  | cons key list ih =>
    rw [foldl_cons]
    exact ih (fun key mem => among' key (mem_cons_of_mem _ mem)) _
      (offer_client (among' key mem_cons_self) forward start)

/-- A scan forward or backward with the code of an ordinal finds keys of the ordinal only. -/
theorem dictScan_client (d : Dictionary Byte Byte) {e : ScanInfo}
    (pre : e.pre = a.code) (str : List Byte) (before after : Nat) (side : before = 0 ∨ after = 0) :
    Client a (d.keys d.depth) e
      (dictScan scanHandle2 d.toDictStruct d.depth str before after e) := by
  rcases side with rfl | rfl
  · rw [Dict.dictScan_after]
    exact visit_client (fun key mem => (mem_filter.mp mem).1) true after pre
  · rw [Dict.dictScan_before]
    exact visit_client (fun key mem => (mem_filter.mp mem).1) false before pre

/-- The codes of ordinals are no prefixes of one another, have no zero byte and are read back, so
that the keys of ordinals differ and deletions and scans stay among those of one ordinal. -/
theorem ordinals_partition : (∀ a b : SuCodec.Ordinal, a ≠ b → ¬ a.code <+: b.code) ∧
    (∀ a : SuCodec.Ordinal, ∀ c ∈ a.code, c ≠ 0) ∧
    (∀ a : SuCodec.Ordinal, 1 ≤ a.val → ∀ rest,
      keySUDecode (a.code ++ rest) = some (a.val, a.code.length)) ∧
    (∀ a b : SuCodec.Ordinal, a ≠ b → ∀ s t, a.code ++ s ≠ b.code ++ t) ∧
    (∀ (d : Dictionary Byte Byte) (a : SuCodec.Ordinal), 1 ≤ a.val →
      ∃ (d' : Dictionary Byte Byte) (r : Nat) (infos : List (List Byte)),
        dictDeleteSubtreeOrd d.depth d.toDictStruct a.val = some (d'.toDictStruct, r) ∧
        OrdDeleted a d d' ∧ d'.calls = d.calls ++ infos ∧
        infos.length = ((d.keys d.depth).filter fun key => a.code <+: key.str).length) ∧
    (∀ (d : Dictionary Byte Byte) (a : SuCodec.Ordinal) (e : ScanInfo), e.pre = a.code →
      ∀ (str : List Byte) (before after : Nat), before = 0 ∨ after = 0 →
        Client a (d.keys d.depth) e
          (dictScan scanHandle2 d.toDictStruct d.depth str before after e)) := by
  have readsBack := SuCodec.Ordinal.code_readsBack
  refine ⟨?_, fun a => a.code_nonzero, fun a given => SuCodec.keySUDecode_code given, ?_,
    fun d a given => dictDeleteSubtreeOrd_deleted d given le_rfl,
    fun d a e pre => dictScan_client d pre⟩
  · exact fun a b differ front => differ (readsBack.front_word front)
  · exact fun a b differ s t same => differ (readsBack.unique same)

theorem ordinals_partition_small :
    keySUDecode ((⟨64, .inr (by decide)⟩ : SuCodec.Ordinal).code ++ [7]) =
        some (64, (⟨64, .inr (by decide)⟩ : SuCodec.Ordinal).code.length) ∧
      (⟨1, .inr (by decide)⟩ : SuCodec.Ordinal).code ++ [97] ≠
        (⟨2, .inr (by decide)⟩ : SuCodec.Ordinal).code ++ [97] :=
  ⟨ordinals_partition.2.2.1 ⟨64, .inr (by decide)⟩ (by decide) [7],
    ordinals_partition.2.2.2.1 ⟨1, .inr (by decide)⟩ ⟨2, .inr (by decide)⟩ (by decide) [97] [97]⟩

end Zebra.Search
