import EtcdLite.Kv.Standing
import Mathlib.Data.Set.Finite.Lemmas

/-!
# What keeps the answer of a range query

A query lists keys of a range in order, up to its limit. Writes that come after it keep its answer
when they spare the keys that it gets to (`Reaches`): those that are there, it lists, and those that
are not, it would (`listed_eq_iff`). What sparing a key means depends on what the query shows of it:
in full, that nothing puts or deletes it; by its key alone, that it is there in the end; and when
the query only counts, the keys gained make up for those lost (`Spared`, `range_eq_iff`).
-/

namespace EtcdLite

open Server

namespace RangeRequest

/-- The query gets to the key, if it is there: it is in the range, and fewer keys of the range than
the limit, if there is one, are below it. -/
def Reaches (r : RangeRequest) (d : Data) (k : Bytes) : Prop :=
  keyInRange k r.key r.rangeEnd = true ∧
    (0 < r.limit → ((keysBelow d r.key r.rangeEnd k).ncard : Int) < r.limit)

/-- What the query lists, when it shows an entry so. -/
def Listed (r : RangeRequest) (view : KeyInfo → KeyValue) (d : Data) : Set KeyValue :=
  {kv | ∃ k info, d k = some info ∧ r.Reaches d k ∧ view info = kv}

/-- The keys of its range. -/
def keys (r : RangeRequest) (d : Data) : Set Bytes :=
  {k | keyInRange k r.key r.rangeEnd = true ∧ (d k).isSome}

/-! ### How far a query gets -/

section Listed

variable {r : RangeRequest} {d d' : Data} {k k' : Bytes} {view : KeyInfo → KeyValue}

theorem Reaches.of_le (hd : {k | (d k).isSome}.Finite) (h : r.Reaches d k) (hle : k' ≤ k)
    (hin : keyInRange k' r.key r.rangeEnd = true) : r.Reaches d k' := by
  refine ⟨hin, fun hpos => ?_⟩
  have hsub : keysBelow d r.key r.rangeEnd k' ⊆ keysBelow d r.key r.rangeEnd k :=
    fun _ ⟨hsome, hin, hlt⟩ => ⟨hsome, hin, hlt.trans_le hle⟩
  have hcard := Set.ncard_le_ncard hsub (hd.subset fun _ h => h.1)
  have hlt := h.2 hpos
  omega

/-- How far it gets depends on the keys below only. -/
theorem reaches_congr (h : ∀ k' < k, keyInRange k' r.key r.rangeEnd = true →
    ((d' k').isSome ↔ (d k').isSome)) : r.Reaches d' k ↔ r.Reaches d k := by
  have hsame : keysBelow d' r.key r.rangeEnd k = keysBelow d r.key r.rangeEnd k := by
    ext k'
    constructor
    · rintro ⟨hsome, hin, hlt⟩
      exact ⟨(h k' hlt hin).mp hsome, hin, hlt⟩
    · rintro ⟨hsome, hin, hlt⟩
      exact ⟨(h k' hlt hin).mpr hsome, hin, hlt⟩
  rw [Reaches, Reaches, hsame]

theorem listed_subset (h : ∀ k, r.Reaches d k →
    (d' k).map view = (d k).map view ∧ r.Reaches d' k) :
    r.Listed view d ⊆ r.Listed view d' := by
  rintro kv ⟨k, info, hk, hreach, rfl⟩
  obtain ⟨hsame, hreach'⟩ := h k hreach
  rw [hk, Option.map_some, Option.map_eq_some_iff] at hsame
  obtain ⟨info', hk', hview⟩ := hsame
  exact ⟨k, info', hk', hreach', hview⟩

/-- What is listed shows what the data have. -/
theorem listed_iff (hkey : ∀ k info, d k = some info → (view info).key = k)
    (hreach : r.Reaches d k) {kv : KeyValue} (hkv : kv.key = k) :
    kv ∈ r.Listed view d ↔ (d k).map view = some kv := by
  rw [Option.map_eq_some_iff]
  constructor
  · rintro ⟨k', info, hk', -, rfl⟩
    obtain rfl : k' = k := (hkey k' info hk').symm.trans hkv
    exact ⟨info, hk', rfl⟩
  · rintro ⟨info, hk, rfl⟩
    exact ⟨k, info, hk, hreach, rfl⟩

/-- **The list of a query stays the same exactly when the keys that it gets to show the same.** -/
theorem listed_eq_iff (hd : {k | (d k).isSome}.Finite) (hd' : {k | (d' k).isSome}.Finite)
    (hkey : ∀ k info, d k = some info → (view info).key = k)
    (hkey' : ∀ k info, d' k = some info → (view info).key = k) :
    r.Listed view d' = r.Listed view d ↔
      ∀ k, r.Reaches d k → (d' k).map view = (d k).map view := by
  have hisSome : ∀ k, (d' k).map view = (d k).map view → ((d' k).isSome ↔ (d k).isSome) := by
    intro k hsame
    rw [← Option.isSome_map (f := view), hsame, Option.isSome_map]
  by_cases hall : ∀ k, keyInRange k r.key r.rangeEnd = true → (d' k).map view = (d k).map view
  · have hreach : ∀ k, r.Reaches d' k ↔ r.Reaches d k :=
      fun k => reaches_congr fun k' _ hin => hisSome k' (hall k' hin)
    refine iff_of_true ?_ fun k h => hall k h.1
    exact (listed_subset fun k h => ⟨(hall k h.1).symm, (hreach k).mp h⟩).antisymm
      (listed_subset fun k h => ⟨hall k h.1, (hreach k).mpr h⟩)
  -- The first key of the range that shows something else.
  obtain ⟨k₀, ⟨hin₀, hne₀⟩, hleast⟩ : ∃ k₀, (keyInRange k₀ r.key r.rangeEnd = true ∧
      (d' k₀).map view ≠ (d k₀).map view) ∧ ∀ k < k₀, keyInRange k r.key r.rangeEnd = true →
        (d' k).map view = (d k).map view := by
    push Not at hall
    have hfinite : {k | keyInRange k r.key r.rangeEnd = true ∧
        (d' k).map view ≠ (d k).map view}.Finite := by
      refine (hd.union hd').subset ?_
      rintro k ⟨-, hne⟩
      by_contra hnone
      simp only [Set.mem_union, Set.mem_ofPred_eq, not_or, Option.not_isSome_iff_eq_none] at hnone
      exact hne (by rw [hnone.1, hnone.2])
    obtain ⟨k₀, hk₀, hmin⟩ := Set.exists_min_image _ id hfinite hall
    refine ⟨k₀, hk₀, fun k hlt hin => ?_⟩
    by_contra hne
    exact absurd (hmin k ⟨hin, hne⟩) (not_le.mpr hlt)
  have hbelow : ∀ k ≤ k₀, (r.Reaches d' k ↔ r.Reaches d k) := fun k hle =>
    reaches_congr fun k' hlt hin => hisSome k' (hleast k' (hlt.trans_le hle) hin)
  by_cases hreach₀ : r.Reaches d k₀
  · have hreach₀' := (hbelow k₀ le_rfl).mpr hreach₀
    refine iff_of_false (fun hlisted => hne₀ ?_) fun h => hne₀ (h k₀ hreach₀)
    refine Option.ext fun kv => ?_
    by_cases hkv : kv.key = k₀
    · rw [← listed_iff hkey hreach₀ hkv, ← listed_iff hkey' hreach₀' hkv, hlisted]
    · refine iff_of_false (fun h => hkv ?_) fun h => hkv ?_
      · obtain ⟨info, hk, rfl⟩ := Option.map_eq_some_iff.mp h
        exact hkey' k₀ info hk
      · obtain ⟨info, hk, rfl⟩ := Option.map_eq_some_iff.mp h
        exact hkey k₀ info hk
  · -- The query stops before it.
    have hlt : ∀ k, r.Reaches d k → k < k₀ := fun k h =>
      not_le.mp fun hle => hreach₀ (h.of_le hd hle hin₀)
    have hlt' : ∀ k, r.Reaches d' k → k < k₀ := fun k h =>
      not_le.mp fun hle => hreach₀ ((hbelow k₀ le_rfl).mp (h.of_le hd' hle hin₀))
    have hsame : ∀ k, r.Reaches d k → (d' k).map view = (d k).map view :=
      fun k h => hleast k (hlt k h) h.1
    refine iff_of_true ?_ hsame
    exact (listed_subset fun k h => ⟨(hleast k (hlt' k h) h.1).symm,
      (hbelow k (hlt' k h).le).mp h⟩).antisymm
        (listed_subset fun k h => ⟨hsame k h, (hbelow k (hlt k h).le).mpr h⟩)

end Listed

end RangeRequest

/-! ### What the store answers -/

namespace KVStore

variable {s t : KVStore}

theorem finite_data (s : KVStore) : {k | (s.data.find? k).isSome}.Finite :=
  (List.finite_toSet s.data.keys).subset fun _ hk =>
    UnorderedMap.mem_keys.mpr (Option.isSome_iff_exists.mp hk)

/-- The entries that a query gets to. -/
def first (s : KVStore) (r : RangeRequest) : List KeyInfo :=
  if 0 < r.limit then (s.sortedInfos r.key r.rangeEnd).take r.limit.toNat
  else s.sortedInfos r.key r.rangeEnd

theorem range_eq_first (s : KVStore) (r : RangeRequest) :
    s.range r.key r.rangeEnd r.limit r.countOnly r.keysOnly =
      (s.first r).map (rangeElem r.countOnly r.keysOnly) :=
  s.rangeInternal_eq r.key r.rangeEnd r.limit r.countOnly r.keysOnly

theorem first_pairwise (h : s.Keyed) (r : RangeRequest) :
    (s.first r).Pairwise fun a b => a.kv.key < b.kv.key := by
  have hsorted := sortedInfos_pairwise r.key r.rangeEnd h
  rw [first]
  split_ifs
  · exact hsorted.sublist (List.take_sublist ..)
  · exact hsorted

theorem mem_first (h : s.Keyed) (r : RangeRequest) {info : KeyInfo} :
    info ∈ s.first r ↔ ∃ k, s.data.find? k = some info ∧ r.Reaches s.data.find? k := by
  have hplace : ∀ k, s.data.find? k = some info →
      ((s.sortedInfos r.key r.rangeEnd).countP (fun info' => info'.kv.key < info.kv.key) <
        r.limit.toNat ↔ ((keysBelow s.data.find? r.key r.rangeEnd k).ncard : Int) < r.limit) := by
    intro k hk
    rw [countP_sortedInfos r.key r.rangeEnd h, h k info hk]
    omega
  rw [first]
  split_ifs with hpos
  · rw [mem_take_iff (sortedInfos_pairwise r.key r.rangeEnd h), mem_sortedInfos]
    constructor
    · rintro ⟨⟨k, hk, hin⟩, hlt⟩
      exact ⟨k, hk, hin, fun _ => (hplace k hk).mp hlt⟩
    · rintro ⟨k, hk, hin, hlt⟩
      exact ⟨⟨k, hk, hin⟩, (hplace k hk).mpr (hlt hpos)⟩
  · rw [mem_sortedInfos]
    constructor
    · rintro ⟨k, hk, hin⟩
      exact ⟨k, hk, hin, fun hpos' => absurd hpos' hpos⟩
    · rintro ⟨k, hk, hin, -⟩
      exact ⟨k, hk, hin⟩

@[simp] theorem rangeElem_key (keysOnly : Bool) (info : KeyInfo) :
    (rangeElem false keysOnly info).key = info.kv.key := by
  cases keysOnly <;> rfl

/-- A query that shows keys answers alike when it lists the same. -/
theorem range_eq_iff_listed (hs : s.Keyed) (ht : t.Keyed) {r : RangeRequest}
    (hcount : r.countOnly = false) :
    t.range r.key r.rangeEnd r.limit r.countOnly r.keysOnly =
        s.range r.key r.rangeEnd r.limit r.countOnly r.keysOnly ↔
      r.Listed (rangeElem false r.keysOnly) t.data.find? =
        r.Listed (rangeElem false r.keysOnly) s.data.find? := by
  have hmem : ∀ {u : KVStore}, u.Keyed → ∀ kv, kv ∈ (u.first r).map (rangeElem false r.keysOnly) ↔
      kv ∈ r.Listed (rangeElem false r.keysOnly) u.data.find? := by
    intro u hu kv
    simp only [List.mem_map, mem_first hu, RangeRequest.Listed, Set.mem_ofPred_eq]
    constructor
    · rintro ⟨info, ⟨k, hk, hreach⟩, rfl⟩
      exact ⟨k, info, hk, hreach, rfl⟩
    · rintro ⟨k, info, hk, hreach, rfl⟩
      exact ⟨info, ⟨k, hk, hreach⟩, rfl⟩
  have hsorted : ∀ {u : KVStore}, u.Keyed →
      ((u.first r).map (rangeElem false r.keysOnly)).Pairwise fun a b => a.key < b.key := by
    intro u hu
    rw [List.pairwise_map]
    simpa using first_pairwise hu r
  have hnodup : ∀ {u : KVStore}, u.Keyed → ((u.first r).map (rangeElem false r.keysOnly)).Nodup :=
    fun hu => (hsorted hu).imp fun hlt heq => absurd (congrArg KeyValue.key heq) hlt.ne
  rw [range_eq_first, range_eq_first, hcount]
  constructor
  · intro heq
    ext kv
    rw [← hmem hs, ← hmem ht, heq]
  · intro heq
    refine List.Perm.eq_of_pairwise (fun a b _ _ hab hba => absurd hab hba.not_gt)
      (hsorted ht) (hsorted hs) ?_
    refine (List.perm_ext_iff_of_nodup (hnodup ht) (hnodup hs)).mpr fun kv => ?_
    rw [hmem ht, hmem hs, heq]

/-- How many entries a query gets to. -/
theorem length_first (h : s.Keyed) (r : RangeRequest) : ((s.first r).length : Int) =
    if 0 < r.limit then min r.limit ((r.keys s.data.find?).ncard : Int)
    else ((r.keys s.data.find?).ncard : Int) := by
  have hset : r.keys s.data.find? =
      ↑(s.data.keys.filter fun k => keyInRange k r.key r.rangeEnd).toFinset := by
    ext k
    simp [RangeRequest.keys, UnorderedMap.mem_keys, Option.isSome_iff_exists, and_comm]
  have hlength : (s.sortedInfos r.key r.rangeEnd).length = (r.keys s.data.find?).ncard := by
    rw [hset, Set.ncard_coe_finset, List.toFinset_card_of_nodup (s.data.nodup_keys.filter _),
      ← (map_key_sortedInfos r.key r.rangeEnd h).length_eq, List.length_map]
  rw [first]
  split_ifs with hpos
  · rw [List.length_take, hlength]
    omega
  · rw [hlength]

/-- A query that counts answers alike when it gets to as many entries. -/
theorem range_eq_iff_length {r : RangeRequest} (hcount : r.countOnly = true) :
    t.range r.key r.rangeEnd r.limit r.countOnly r.keysOnly =
        s.range r.key r.rangeEnd r.limit r.countOnly r.keysOnly ↔
      (t.first r).length = (s.first r).length := by
  have hall : ∀ u : KVStore, (u.first r).map (rangeElem true r.keysOnly) =
      List.replicate (u.first r).length {} := fun u => List.map_const' ..
  rw [range_eq_first, range_eq_first, hcount, hall, hall]
  exact List.replicate_inj.trans (by simp)

end KVStore

/-! ### What writes do to it -/

/-- Some of the writes put or delete the key. -/
def Written (k : Bytes) (ws : List Write) : Prop :=
  ∃ w ∈ ws, w.deletes k = true ∨ (w.putOf k).isSome

/-- The last of the writes that put or delete the key deletes it. -/
def Removed (k : Bytes) (ws : List Write) : Prop :=
  (∃ w ∈ ws, w.deletes k = true) ∧ livePuts k ws = []

/-- The write, if it is a put, is at a later revision. -/
def Write.After (R : Int) : Write → Prop
  | .put _ _ _ revision => R < revision
  | .delete _ _ => True

section Writes

variable {d : Data} {k : Bytes} {ws : List Write}

/-- A key is there after some writes if the last of those that put or delete it puts it, or if it
was there and they do not delete it. -/
theorem isSome_writes (d : Data) (k : Bytes) (ws : List Write) :
    (ws.foldl Write.onData d k).isSome ↔
      livePuts k ws ≠ [] ∨ (d k).isSome ∧ ∀ w ∈ ws, w.deletes k = false := by
  induction ws using List.reverseRecOn with
  | nil => simp [livePuts]
  | append_singleton ws w ih =>
    rw [List.foldl_append, List.foldl_cons, List.foldl_nil, livePuts_concat]
    cases hdel : w.deletes k with
    | true => simp [Write.onData_of_deletes hdel, hdel]
    | false =>
      cases hput : w.putOf k with
      | none =>
        rw [Write.onData_of_other hdel hput, ih]
        simp [hdel, or_imp, forall_and]
      | some p => simp [Write.onData_of_putOf hput]

theorem isSome_writes_of_none (hk : d k = none) :
    (ws.foldl Write.onData d k).isSome ↔ livePuts k ws ≠ [] := by
  simp [isSome_writes, hk]

theorem isSome_writes_of_some (hk : (d k).isSome) :
    (ws.foldl Write.onData d k).isSome ↔ ¬ Removed k ws := by
  rw [isSome_writes, Removed, not_and, ← Ne, or_iff_not_imp_right]
  simp [hk]

theorem writes_of_not_written (h : ¬ Written k ws) : ws.foldl Write.onData d k = d k := by
  induction ws generalizing d with
  | nil => rfl
  | cons w ws ih =>
    simp only [Written, List.exists_mem_cons_iff, not_or, Bool.not_eq_true,
      Option.isSome_eq_false_iff, Option.isNone_iff_eq_none] at h
    obtain ⟨⟨hdel, hput⟩, hrest⟩ := h
    rw [List.foldl_cons, ih (by simpa [Written] using hrest), Write.onData_of_other hdel hput]

/-- A key that is put after a revision is absent or of a later one. -/
theorem writes_of_written {R : Int} (hws : ∀ w ∈ ws, w.After R) (h : Written k ws) {info : KeyInfo}
    (hinfo : ws.foldl Write.onData d k = some info) : R < info.kv.modRevision := by
  induction ws using List.reverseRecOn generalizing info with
  | nil => simp [Written] at h
  | append_singleton ws w ih =>
    rw [List.foldl_append, List.foldl_cons, List.foldl_nil] at hinfo
    cases hdel : w.deletes k with
    | true => cases (Write.onData_of_deletes hdel).symm.trans hinfo
    | false =>
      cases hput : w.putOf k with
      | none =>
        rw [Write.onData_of_other hdel hput] at hinfo
        refine ih (fun w' hw' => hws w' (by simp [hw'])) ?_ hinfo
        simpa [Written, or_and_right, exists_or, hdel, hput] using h
      | some p =>
        rw [Write.onData_of_putOf hput, Option.some.injEq] at hinfo
        have hafter : w.After R := hws w (by simp)
        rw [Write.putOf_eq_some hput] at hafter
        rw [← hinfo]
        exact hafter

end Writes

/-- What a run of the store writes, it writes at later revisions. -/
theorem writes_after {s : Server} {ops : List KvOp} :
    ∀ w ∈ Run.log KvOp.exec KvOp.writes s ops, w.After s.kvStore.revision := by
  have hmono : ∀ {w : Write} {R R' : Int}, R ≤ R' → w.After R' → w.After R := by
    intro w R R' hle h
    cases w with
    | put key value lease revision => exact lt_of_le_of_lt hle h
    | delete key rangeEnd => trivial
  induction ops generalizing s with
  | nil => exact fun w hw => absurd hw List.not_mem_nil
  | cons op ops ih =>
    intro w hw
    rcases List.mem_append.mp hw with hw | hw
    · have hat := op.writes_at s w hw
      cases w with
      | put key value lease revision =>
        obtain rfl : revision = s.kvStore.revision + 1 := hat
        exact Int.lt_succ _
      | delete key rangeEnd => trivial
    · refine hmono ?_ (ih w hw)
      rw [exec_revision]
      omega

namespace RangeRequest

/-- The keys of its range that are not there, and that the writes put and leave. -/
def gained (r : RangeRequest) (d : Data) (ws : List Write) : Set Bytes :=
  {k | keyInRange k r.key r.rangeEnd = true ∧ d k = none ∧ livePuts k ws ≠ []}

/-- The keys of its range that are there, and that the writes remove. -/
def lost (r : RangeRequest) (d : Data) (ws : List Write) : Set Bytes :=
  {k | keyInRange k r.key r.rangeEnd = true ∧ (d k).isSome ∧ Removed k ws}

/-- The writes spare what the query shows of the data. Of the keys that it gets to, none that is
there is put or deleted, or, if it shows keys alone, removed; and none that is not there is put and
left. If it only counts, as many keys of its range are gained as lost, or there are as many as its
limit both before and after. -/
def Spared (r : RangeRequest) (d : Data) (ws : List Write) : Prop :=
  if r.countOnly then
    (r.gained d ws).ncard = (r.lost d ws).ncard ∨ 0 < r.limit ∧ r.limit ≤ (r.keys d).ncard ∧
      r.limit + (r.lost d ws).ncard ≤ (r.keys d).ncard + (r.gained d ws).ncard
  else
    ∀ k, r.Reaches d k →
      if (d k).isSome then if r.keysOnly then ¬ Removed k ws else ¬ Written k ws
      else livePuts k ws = []

variable {r : RangeRequest} {d : Data} {ws : List Write}

/-- The keys of the range after the writes. -/
theorem ncard_keys_writes (hd : {k | (d k).isSome}.Finite)
    (hd' : {k | (ws.foldl Write.onData d k).isSome}.Finite) :
    (r.keys (ws.foldl Write.onData d)).ncard + (r.lost d ws).ncard =
      (r.keys d).ncard + (r.gained d ws).ncard := by
  have hfinite : (r.keys d).Finite := hd.subset fun _ h => h.2
  have hkeys : r.keys (ws.foldl Write.onData d) = (r.keys d \ r.lost d ws) ∪ r.gained d ws := by
    ext k
    cases hk : d k with
    | none => simp [keys, lost, gained, hk, isSome_writes_of_none hk]
    | some info =>
      have hsome : (d k).isSome := by simp [hk]
      simp [keys, lost, gained, hk, isSome_writes_of_some hsome]
      tauto
  have hgained : (r.gained d ws).Finite := by
    refine hd'.subset fun k h => ?_
    exact (isSome_writes_of_none h.2.1).mpr h.2.2
  have hdisjoint : Disjoint (r.keys d \ r.lost d ws) (r.gained d ws) := by
    refine Set.disjoint_left.mpr fun k hk hgained => ?_
    have hsome := hk.1.2
    rw [hgained.2.1] at hsome
    cases hsome
  have hsub : r.lost d ws ⊆ r.keys d := fun k h => ⟨h.1, h.2.1⟩
  rw [hkeys, Set.ncard_union_eq hdisjoint (hfinite.subset Set.sdiff_subset) hgained,
    ← Set.ncard_sdiff_add_ncard_of_subset hsub hfinite]
  omega

/-- **The answer stays the same exactly when the writes spare what it shows.** -/
theorem range_eq_iff {s t : Server} (hs : s.Dated) (ht : t.Dated)
    (hdata : t.data = ws.foldl Write.onData s.data)
    (hws : ∀ w ∈ ws, w.After s.kvStore.revision) (r : RangeRequest) :
    t.kvStore.range r.key r.rangeEnd r.limit r.countOnly r.keysOnly =
        s.kvStore.range r.key r.rangeEnd r.limit r.countOnly r.keysOnly ↔
      r.Spared s.data ws := by
  have hfinite : {k | (s.data k).isSome}.Finite := s.kvStore.finite_data
  have hfinite' : {k | (ws.foldl Write.onData s.data k).isSome}.Finite :=
    hdata ▸ t.kvStore.finite_data
  rw [Spared]
  by_cases hcount : r.countOnly = true
  · rw [if_pos hcount]
    have hlength := KVStore.length_first hs.keyed r
    have hlength' := KVStore.length_first ht.keyed r
    change ((t.kvStore.first r).length : Int) = if 0 < r.limit then
      min r.limit ((r.keys t.data).ncard : Int) else ((r.keys t.data).ncard : Int) at hlength'
    change ((s.kvStore.first r).length : Int) = if 0 < r.limit then
      min r.limit ((r.keys s.data).ncard : Int) else ((r.keys s.data).ncard : Int) at hlength
    have hcard := ncard_keys_writes (r := r) hfinite hfinite'
    rw [← hdata] at hcard
    rw [KVStore.range_eq_iff_length hcount]
    split_ifs at hlength hlength' <;> omega
  · rw [if_neg hcount]
    have hshows : r.countOnly = false := Bool.eq_false_iff.mpr hcount
    have hkey : ∀ {u : Server}, u.Dated → ∀ k info, u.kvStore.data.find? k = some info →
        (KVStore.rangeElem false r.keysOnly info).key = k := fun hu k info hk =>
      (KVStore.rangeElem_key r.keysOnly info).trans (hu.keyed k info hk)
    rw [KVStore.range_eq_iff_listed hs.keyed ht.keyed hshows,
      listed_eq_iff s.kvStore.finite_data t.kvStore.finite_data (hkey hs) (hkey ht)]
    refine forall₂_congr fun k _ => ?_
    change (t.data k).map _ = (s.data k).map _ ↔ _
    rw [hdata]
    cases hk : s.data k with
    | none =>
      rw [Option.map_none, Option.map_eq_none_iff, ← Option.not_isSome_iff_eq_none,
        isSome_writes_of_none hk]
      simp
    | some info =>
      have hsome : (s.data k).isSome := by simp [hk]
      simp only [Option.map_some, Option.isSome_some, if_true]
      split_ifs with hkeys
      · rw [← isSome_writes_of_some hsome, hkeys]
        constructor
        · intro hsame
          obtain ⟨info', hinfo', -⟩ := Option.map_eq_some_iff.mp hsame
          simp [hinfo']
        · intro hthere
          obtain ⟨info', hinfo'⟩ := Option.isSome_iff_exists.mp hthere
          have hkey' : info'.kv.key = k := ht.keyed k info' (by rw [← hinfo', ← hdata]; rfl)
          rw [hinfo', Option.map_some]
          simp [KVStore.rangeElem, hkey', hs.keyed k info hk]
      · have hfull : KVStore.rangeElem false r.keysOnly = KeyInfo.kv := by
          funext info
          simp [KVStore.rangeElem, hkeys]
        rw [hfull]
        constructor
        · intro hsame hwritten
          obtain ⟨info', hinfo', hkv⟩ := Option.map_eq_some_iff.mp hsame
          have hlater := writes_of_written hws hwritten hinfo'
          have hdated := hs.data k info hk
          have hmod := hdated.mod_le
          rw [hkv, ← hdated.mod] at hlater
          omega
        · intro hspared
          rw [writes_of_not_written hspared, hk, Option.map_some]

end RangeRequest

end EtcdLite
