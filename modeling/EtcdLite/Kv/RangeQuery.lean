import EtcdLite.Model.KVStore
import Mathlib.Data.Set.Card

/-!
# Range queries

`RangeInternal` collects the entries of a range from the table, sorts them by key, and
appends the first of them up to the limit. When every entry is stored under its own key,
the sorted entries are in strictly ascending order whatever the order of the table
(`sortedInfos_pairwise`). So an entry is in the answer exactly when it is in the range and
fewer entries of the range than the limit have a smaller key (`mem_rangeInternal`).
-/

namespace EtcdLite

/-! ### The first of a sorted list -/

/-- In a strictly ascending list, the first `n` are those with fewer than `n` below them. -/
theorem mem_take_iff {α β : Type*} [Preorder β] [DecidableLT β] {f : α → β} {l : List α}
    (hl : l.Pairwise fun a b => f a < f b) {x : α} (n : ℕ) :
    x ∈ l.take n ↔ x ∈ l ∧ l.countP (fun y => f y < f x) < n := by
  induction l generalizing n with
  | nil => simp
  | cons a l ih =>
    obtain ⟨hhead, htail⟩ := List.pairwise_cons.mp hl
    cases n with
    | zero => simp
    | succ n =>
      rw [List.take_succ_cons, List.mem_cons, List.mem_cons, ih htail, List.countP_cons]
      by_cases hx : x = a
      · subst hx
        have hzero : l.countP (fun y => f y < f x) = 0 := by
          rw [List.countP_eq_zero]
          intro y hy
          simpa using (hhead y hy).not_gt
        simp [hzero]
      · simp only [hx, false_or]
        refine and_congr_right fun hmem => ?_
        simp only [hhead x hmem, decide_true, if_true]
        omega

/-- The keys of a range that the data has, below a key. -/
def keysBelow (d : Bytes → Option KeyInfo) (start endKey k : Bytes) : Set Bytes :=
  {k' | (d k').isSome ∧ keyInRange k' start endKey ∧ k' < k}

namespace KVStore

/-- Every entry is stored under its own key. -/
def Keyed (s : KVStore) : Prop := ∀ k info, s.data.find? k = some info → info.kv.key = k

/-- The entries of a range, sorted by key. -/
def sortedInfos (s : KVStore) (start endKey : Bytes) : List KeyInfo :=
  ((s.data.toList.filter fun e => keyInRange e.1 start endKey).map Prod.snd).insertionSort
    fun a b => a.kv.key ≤ b.kv.key

/-- The loop appends the first entries, up to the limit. -/
theorem rangeLoop_eq (limit : Int) (countOnly keysOnly : Bool) (count : Int)
    (infos : List KeyInfo) : rangeLoop limit countOnly keysOnly count infos =
      (if 0 < limit then infos.take (limit - count).toNat else infos).map
        (rangeElem countOnly keysOnly) := by
  induction infos generalizing count with
  | nil => simp [rangeLoop]
  | cons info infos ih =>
    simp only [rangeLoop]
    split_ifs with hstop hpos hpos
    · rw [show (limit - count).toNat = 0 by omega]
      rfl
    · exact absurd hstop.1 hpos
    · rw [ih, if_pos hpos, show (limit - count).toNat = (limit - (count + 1)).toNat + 1 by omega]
      rfl
    · rw [ih, if_neg hpos]
      rfl

theorem rangeInternal_eq (s : KVStore) (start endKey : Bytes) (limit : Int)
    (countOnly keysOnly : Bool) : s.rangeInternal start endKey limit countOnly keysOnly =
      (if 0 < limit then (s.sortedInfos start endKey).take limit.toNat
        else s.sortedInfos start endKey).map (rangeElem countOnly keysOnly) := by
  rw [rangeInternal, rangeLoop_eq, Int.sub_zero]
  rfl

section Sorted

variable (s : KVStore) (start endKey : Bytes)

theorem sortedInfos_perm : (s.sortedInfos start endKey).Perm
    ((s.data.toList.filter fun e => keyInRange e.1 start endKey).map Prod.snd) :=
  List.perm_insertionSort _ _

/-- Without a limit the answer is the entries of the range, in some order. -/
theorem range_perm : (s.range start endKey 0 false false).Perm
    ((s.data.toList.filter fun e => keyInRange e.1 start endKey).map fun e => e.2.kv) := by
  have hperm := (s.sortedInfos_perm start endKey).map KeyInfo.kv
  rw [List.map_map] at hperm
  rw [range, rangeInternal_eq, if_neg (lt_irrefl 0)]
  exact hperm

theorem mem_range {kv : KeyValue} : kv ∈ s.range start endKey 0 false false ↔
    ∃ k info, s.data.find? k = some info ∧ keyInRange k start endKey = true ∧ info.kv = kv := by
  rw [(s.range_perm start endKey).mem_iff]
  simp [UnorderedMap.mem_toList, and_assoc]

theorem mem_sortedInfos {info : KeyInfo} : info ∈ s.sortedInfos start endKey ↔
    ∃ k, s.data.find? k = some info ∧ keyInRange k start endKey = true := by
  rw [(s.sortedInfos_perm start endKey).mem_iff]
  simp [UnorderedMap.mem_toList]

variable {s}

/-- The keys of the sorted entries are those of the table that are in the range. -/
theorem map_key_sortedInfos (h : s.Keyed) :
    ((s.sortedInfos start endKey).map fun info => info.kv.key).Perm
      (s.data.keys.filter fun k => keyInRange k start endKey) := by
  have hperm := (s.sortedInfos_perm start endKey).map fun info => info.kv.key
  rw [List.map_map] at hperm
  have hkeys : ((s.data.toList.filter fun e => keyInRange e.1 start endKey).map fun e =>
      e.2.kv.key) = (s.data.toList.filter fun e => keyInRange e.1 start endKey).map Prod.fst := by
    refine List.map_congr_left fun e he => ?_
    exact h e.1 e.2 (UnorderedMap.mem_toList.mp (List.mem_of_mem_filter he))
  rw [UnorderedMap.keys, List.filter_map]
  exact hperm.trans (hkeys ▸ .refl _)

/-- **The sorted entries are in strictly ascending order of their keys.** -/
theorem sortedInfos_pairwise (h : s.Keyed) :
    (s.sortedInfos start endKey).Pairwise fun a b => a.kv.key < b.kv.key := by
  have hle : (s.sortedInfos start endKey).Pairwise fun a b => a.kv.key ≤ b.kv.key := by
    have htotal : Std.Total fun a b : KeyInfo => a.kv.key ≤ b.kv.key := ⟨fun a b => le_total _ _⟩
    have htrans : IsTrans KeyInfo fun a b => a.kv.key ≤ b.kv.key := ⟨fun a b c => le_trans⟩
    exact List.pairwise_insertionSort _ _
  have hne : (s.sortedInfos start endKey).Pairwise fun a b => a.kv.key ≠ b.kv.key := by
    rw [← List.pairwise_map (f := fun info : KeyInfo => info.kv.key) (R := fun a b => a ≠ b)]
    exact (map_key_sortedInfos start endKey h).symm.nodup (s.data.nodup_keys.filter _)
  exact (hle.and hne).imp fun hab => lt_of_le_of_ne hab.1 hab.2

/-- How many of the sorted entries are below a key. -/
theorem countP_sortedInfos (h : s.Keyed) (k : Bytes) :
    (s.sortedInfos start endKey).countP (fun info => info.kv.key < k) =
      (keysBelow s.data.find? start endKey k).ncard := by
  have hcount : (s.sortedInfos start endKey).countP (fun info => info.kv.key < k) =
      ((s.data.keys.filter fun k' => keyInRange k' start endKey).filter fun k' => k' < k).length := by
    rw [← List.countP_eq_length_filter, ← (map_key_sortedInfos start endKey h).countP_eq,
      List.countP_map]
    rfl
  have hnodup : ((s.data.keys.filter fun k' => keyInRange k' start endKey).filter fun k' =>
      k' < k).Nodup := (s.data.nodup_keys.filter _).filter _
  have hset : keysBelow s.data.find? start endKey k = ↑((s.data.keys.filter fun k' =>
      keyInRange k' start endKey).filter fun k' => k' < k).toFinset := by
    ext k'
    simp [keysBelow, UnorderedMap.mem_keys, Option.isSome_iff_exists, and_comm]
  rw [hcount, hset, Set.ncard_coe_finset, List.toFinset_card_of_nodup hnodup]

/-- **What a range query answers.** An entry is in the answer when its key is in the range, and
fewer keys of the range than the limit, if there is one, are below it. -/
theorem mem_rangeInternal (h : s.Keyed) (limit : Int) {kv : KeyValue} :
    kv ∈ s.rangeInternal start endKey limit false false ↔
      ∃ k info, s.data.find? k = some info ∧ keyInRange k start endKey = true ∧
        (0 < limit → ((keysBelow s.data.find? start endKey k).ncard : Int) < limit) ∧ info.kv = kv := by
  have hmem : ∀ info k, s.data.find? k = some info →
      ((s.sortedInfos start endKey).countP (fun info' => info'.kv.key < info.kv.key) < limit.toNat ↔
        ((keysBelow s.data.find? start endKey k).ncard : Int) < limit) := by
    intro info k hk
    rw [countP_sortedInfos start endKey h, h k info hk]
    omega
  rw [rangeInternal_eq, List.mem_map]
  constructor
  · rintro ⟨info, hinfo, rfl⟩
    split_ifs at hinfo with hpos
    · obtain ⟨hsorted, hlt⟩ := (mem_take_iff (sortedInfos_pairwise start endKey h) _).mp hinfo
      obtain ⟨k, hk, hr⟩ := (s.mem_sortedInfos start endKey).mp hsorted
      exact ⟨k, info, hk, hr, fun _ => (hmem info k hk).mp hlt, rfl⟩
    · obtain ⟨k, hk, hr⟩ := (s.mem_sortedInfos start endKey).mp hinfo
      exact ⟨k, info, hk, hr, fun hpos' => absurd hpos' hpos, rfl⟩
  · rintro ⟨k, info, hk, hr, hlimit, rfl⟩
    have hsorted := (s.mem_sortedInfos start endKey).mpr ⟨k, hk, hr⟩
    refine ⟨info, ?_, rfl⟩
    split_ifs with hpos
    · exact (mem_take_iff (sortedInfos_pairwise start endKey h) _).mpr
        ⟨hsorted, (hmem info k hk).mpr (hlimit hpos)⟩
    · exact hsorted

/-- The sorted entries do not depend on the order of the table. -/
theorem sortedInfos_congr {t : KVStore} (h : s.Keyed) (ht : t.data.find? = s.data.find?) :
    t.sortedInfos start endKey = s.sortedInfos start endKey := by
  have hkeyed : t.Keyed := fun k info hk => h k info (by rw [← ht, hk])
  have hentries := ((UnorderedMap.toList_perm ht).filter fun e => keyInRange e.1 start endKey).map
    Prod.snd
  refine List.Perm.eq_of_pairwise (fun a b _ _ hab hba => absurd hab hba.not_gt)
    (sortedInfos_pairwise start endKey hkeyed) (sortedInfos_pairwise start endKey h) ?_
  exact ((t.sortedInfos_perm start endKey).trans hentries).trans
    (s.sortedInfos_perm start endKey).symm

end Sorted

/-- **Range queries are exact.** There is one list of the entries of a range in strictly
ascending order of their keys, and every store that has these entries, in whatever order,
answers the first of them up to the limit: in full, or with their keys alone; and as many
elements when it only counts. The query returns nothing else, so the store is as it was. -/
theorem range_exact (s : KVStore) (h : s.Keyed) (start endKey : Bytes) :
    ∃ infos : List KeyInfo,
      infos.Perm ((s.data.toList.filter fun e => keyInRange e.1 start endKey).map Prod.snd) ∧
      (infos.Pairwise fun a b => a.kv.key < b.kv.key) ∧
      ∀ t : KVStore, t.data.find? = s.data.find? → ∀ limit : Int,
        let first := if 0 < limit then infos.take limit.toNat else infos
        t.range start endKey limit false false = first.map KeyInfo.kv ∧
        t.range start endKey limit false true = first.map (fun info => { key := info.kv.key }) ∧
        ∀ keysOnly, (t.range start endKey limit true keysOnly).length =
          (t.range start endKey limit false keysOnly).length := by
  refine ⟨s.sortedInfos start endKey, s.sortedInfos_perm start endKey,
    sortedInfos_pairwise start endKey h, fun t ht limit => ?_⟩
  have hsame := sortedInfos_congr start endKey h ht
  have hrange : ∀ countOnly keysOnly, t.range start endKey limit countOnly keysOnly =
      (if 0 < limit then (s.sortedInfos start endKey).take limit.toNat
        else s.sortedInfos start endKey).map (rangeElem countOnly keysOnly) := by
    intro countOnly keysOnly
    rw [range, rangeInternal_eq, hsame]
  refine ⟨hrange false false, hrange false true, fun keysOnly => ?_⟩
  rw [hrange, hrange, List.length_map, List.length_map]

/-- The theorem at a table that has `"b"` before `"a"`. -/
theorem range_exact_two :
    let s : KVStore := { KVStore.new (.front _ _) with
      data := ((UnorderedMap.empty (.front _ _)).insert [97] ⟨{ key := [97] }, 2, 2, 1⟩).insert [98]
        ⟨{ key := [98] }, 3, 3, 1⟩ }
    ∃ infos : List KeyInfo, (infos.Pairwise fun a b => a.kv.key < b.kv.key) ∧
      s.range [97] [0] 0 false false = infos.map KeyInfo.kv := by
  intro s
  have hkeyed : s.Keyed := by
    intro k info hk
    simp only [s, UnorderedMap.find?_insert, UnorderedMap.find?_empty] at hk
    split_ifs at hk with h₁ h₂
    · rw [h₁, ← Option.some.inj hk]
    · rw [h₂, ← Option.some.inj hk]
  obtain ⟨infos, -, hsorted, hrange⟩ := range_exact s hkeyed [97] [0]
  exact ⟨infos, hsorted, (hrange s rfl 0).1⟩

end KVStore

end EtcdLite
