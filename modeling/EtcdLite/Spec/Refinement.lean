import EtcdLite.Kv.PrevKv
import EtcdLite.Kv.RangeQuery
import EtcdLite.Lease.Expiry
import EtcdLite.Lease.ExpiryEffect
import EtcdLite.Lease.Requests
import EtcdLite.Spec.Etcd

/-!
# The server refines the abstract one

What the tables of the server say in the terms of `Etcd` (`Represents`): the key-value of each key is
its entry in the store; a key is owned by the lease whose key set it is in; and a lease expires when
its entry in the table of leases says. From a server that represents an abstract one, each request
gets an answer that this gives, too, and leaves a server that represents what comes of it
(`simulation`). So all runs of the server are runs of the abstract one (`server_refines`); and since
that is determined, how the hash tables are laid out does not show (`layouts_agree`).
-/

namespace EtcdLite

open Server Refinement

/-! ### Entries and key-values -/

/-- The entry of a key-value: three of its numbers are kept twice. -/
def KeyInfo.ofKv (kv : KeyValue) : KeyInfo :=
  { kv := kv, createRevision := kv.createRevision, modRevision := kv.modRevision,
    version := kv.version }

theorem putInfo_ofKv (old : Option KeyValue) (key value : Bytes) (lease revision : Int) :
    putInfo (old.map KeyInfo.ofKv) key value lease revision =
      .ofKv (putKv old key value lease revision) := by
  cases old <;> rfl

theorem evaluateCompare_ofKv (cmp : Compare) (kv : Option KeyValue) :
    KVStore.evaluateCompare cmp (kv.map KeyInfo.ofKv) = holds cmp kv := by
  cases kv with
  | none => rfl
  | some kv =>
    rw [Option.map_some, KVStore.evaluateCompare, holds]
    cases htarget : cmp.target <;> simp [KVStore.getTargetValue, htarget, KeyInfo.ofKv]

theorem mem_span {k start endKey : Bytes} :
    k ∈ span start endKey ↔ keyInRange k start endKey = true := by
  cases endKey with
  | nil => simp [span]
  | cons b bs =>
    rw [keyInRange, span]
    by_cases hlt : k < start <;> by_cases hb : b = 0 <;> simp [hlt, hb, not_lt.mp]

/-! ### What a server represents -/

/-- The server keeps in its tables what the abstract one says. -/
structure Represents (s : Server) (e : Etcd) : Prop where
  data : ∀ k, s.data k = (e.map.data k).map KeyInfo.ofKv
  keyed : ∀ k kv, e.map.data k = some kv → kv.key = k
  /-- The key sets are the owners, the other way round. -/
  owner : ∀ k L, e.map.owner k = some L ↔ ∃ S, s.leaseManager.keySet L = some S ∧ k ∈ S
  /-- A key is attached to the lease that it names, if to any. -/
  named : ∀ k L, e.map.owner k = some L → ∃ kv, e.map.data k = some kv ∧ kv.lease = L
  leases : s.leaseManager.times = e.map.leases
  positive : ∀ L, (e.map.leases L).isSome → 0 < L
  revision : s.kvStore.revision = e.revision
  nextLeaseId : s.leaseManager.nextLeaseId = e.nextLeaseId
  clusterId : s.kvStore.clusterId = 1
  memberId : s.kvStore.memberId = 1
  wired : s.kvStore.leaseManager = true

theorem kvStore_deleteKeys (s : Server) (ks : List Bytes) : ∃ data revision,
    (ks.foldl deleteKeyCallback s).kvStore = { s.kvStore with revision := revision, data := data } := by
  induction ks generalizing s with
  | nil => exact ⟨_, _, rfl⟩
  | cons k ks ih =>
    obtain ⟨data, revision, hks⟩ := ih (s.deleteKeyCallback k)
    refine ⟨data, revision, hks.trans ?_⟩
    rw [deleteKeyCallback, delete_kvStore]

/-- A revocation changes the data and the revision of the store, and nothing else of it. -/
theorem kvStore_revoke (s : Server) (L : Int) : ∃ data revision,
    (s.revoke L).2.kvStore = { s.kvStore with revision := revision, data := data } := by
  rw [Server.revoke]
  cases s.leaseManager.getLeaseKeys L with
  | error rc => exact ⟨_, _, rfl⟩
  | ok keys =>
    dsimp only
    split_ifs
    · exact kvStore_deleteKeys s keys
    · exact ⟨_, _, rfl⟩

/-- A request on a watch stream leaves the store and the leases alone. -/
theorem serveWatch_rest (s : Server) (sid : StreamId) (r : WatchRequest) :
    (WatchService.serve s sid r).2.kvStore = s.kvStore ∧
      (WatchService.serve s sid r).2.leaseManager = s.leaseManager := by
  cases r with
  | createRequest req =>
    rw [WatchService.serve]
    dsimp only
    split_ifs <;> exact ⟨rfl, rfl⟩
  | cancelRequest watchId => exact ⟨rfl, rfl⟩
  | progressRequest => exact ⟨rfl, rfl⟩
  | notSet => exact ⟨rfl, rfl⟩

namespace Represents

variable {s t : Server} {e : Etcd}

theorem congr (h : Represents s e) (hstore : t.kvStore = s.kvStore)
    (hlm : t.leaseManager = s.leaseManager) : Represents t e := by
  obtain ⟨data, keyed, owner, named, leases, positive, revision, nextLeaseId, clusterId, memberId,
    wired⟩ := h
  rw [Server.data, ← hstore] at data
  rw [← hlm] at owner leases nextLeaseId
  rw [← hstore] at revision clusterId memberId wired
  exact ⟨data, keyed, owner, named, leases, positive, revision, nextLeaseId, clusterId, memberId,
    wired⟩

theorem live (h : Represents s e) (L : Int) :
    (e.map.leases L).isSome ↔ ∃ S, s.leaseManager.keySet L = some S := by
  rw [← h.leases, ← LeaseManager.live_iff_times, LeaseManager.Live, Option.isSome_iff_exists]

theorem find?_leases (h : Represents s e) (L : Int) : e.map.leases L =
    (s.leaseManager.leases.find? L).map fun lease => (lease.ttl, lease.expireTime) := by
  rw [← h.leases, LeaseManager.times]

/-- The keys of a lease are those of its key set. -/
theorem mem_keys (h : Represents s e) {L : Int} {lease : LeaseInfo}
    (hL : s.leaseManager.leases.find? L = some lease) {k : Bytes} :
    k ∈ e.map.keys {L} ↔ k ∈ lease.keys := by
  rw [LeasedMap.mem_keys_singleton, h.owner, LeaseManager.keySet_of_find? hL]
  simp

theorem leaseOf_data (h : Represents s e) {k : Bytes} {L : Int} (hk : e.map.owner k = some L) :
    leaseOf (s.data k) = L := by
  obtain ⟨kv, hkv, hL⟩ := h.named k L hk
  rw [h.data, hkv]
  exact hL

/-- A write to the tables is a write. -/
theorem write (h : Represents s e) (w : Write) (hbooks : t.books = s.books.write w)
    (hwiring : SameWiring s t) (hrevision : t.kvStore.revision = s.kvStore.revision)
    (hcluster : t.kvStore.clusterId = s.kvStore.clusterId)
    (hmember : t.kvStore.memberId = s.kvStore.memberId) : Represents t (e.write w) := by
  have hdata : t.data = w.onData s.data := congrArg Books.data hbooks
  have hkeys : ∀ L, t.leaseManager.keySet L = (s.leaseManager.keySet L).map (w.onKeys s.data L) :=
    fun L => congrFun (congrArg Books.leases hbooks) L
  have hset : ∀ k L, (∃ S, t.leaseManager.keySet L = some S ∧ k ∈ S) ↔
      ∃ S, s.leaseManager.keySet L = some S ∧ k ∈ w.onKeys s.data L S := by
    intro k L
    simp only [hkeys, Option.map_eq_some_iff]
    constructor
    · rintro ⟨_, ⟨S, hS, rfl⟩, hk⟩
      exact ⟨S, hS, hk⟩
    · rintro ⟨S, hS, hk⟩
      exact ⟨_, ⟨S, hS, rfl⟩, hk⟩
  have hrest : ∀ e' : Etcd, e'.map.leases = e.map.leases → e'.revision = e.revision →
      e'.nextLeaseId = e.nextLeaseId → (∀ k, t.data k = (e'.map.data k).map KeyInfo.ofKv) →
      (∀ k kv, e'.map.data k = some kv → kv.key = k) →
      (∀ k L, e'.map.owner k = some L ↔ ∃ S, s.leaseManager.keySet L = some S ∧ k ∈ w.onKeys s.data L S) →
      (∀ k L, e'.map.owner k = some L → ∃ kv, e'.map.data k = some kv ∧ kv.lease = L) →
      Represents t e' := by
    intro e' hleases hrev hnext hdata' hkeyed howner hnamed
    exact ⟨hdata', hkeyed, fun k L => (howner k L).trans (hset k L).symm, hnamed,
      hwiring.leases.times.trans (h.leases.trans hleases.symm),
      fun L hL => h.positive L (hleases ▸ hL),
      hrevision.trans (h.revision.trans hrev.symm),
      hwiring.leases.nextLeaseId.trans (h.nextLeaseId.trans hnext.symm),
      hcluster.trans h.clusterId, hmember.trans h.memberId, hwiring.leaseManager.trans h.wired⟩
  cases w with
  | put key value lease revision =>
    refine hrest _ rfl rfl rfl (fun k => ?_) (fun k kv hkv => ?_) (fun k L => ?_) fun k L hL => ?_
    · show t.data k = (Function.update e.map.data key _ k).map KeyInfo.ofKv
      rw [hdata, Write.onData, h.data, putInfo_ofKv]
      by_cases hk : k = key
      · rw [hk, Function.update_self, Function.update_self]
        rfl
      · rw [Function.update_of_ne hk, Function.update_of_ne hk, h.data]
    · change Function.update e.map.data key _ k = some kv at hkv
      by_cases hk : k = key
      · rw [hk, Function.update_self] at hkv
        rw [← Option.some.inj hkv, hk]
        rfl
      · rw [Function.update_of_ne hk] at hkv
        exact h.keyed k kv hkv
    · show Function.update e.map.owner key _ k = some L ↔ _
      by_cases hk : k = key
      · subst hk
        rw [Function.update_self]
        constructor
        · intro hL
          split_ifs at hL with hlive
          obtain rfl := Option.some.inj hL
          obtain ⟨S, hS⟩ := (h.live lease).mp hlive
          exact ⟨S, hS, .inl ⟨rfl, h.positive lease hlive, rfl⟩⟩
        · rintro ⟨S, hS, ⟨-, -, rfl⟩ | ⟨hmem, hold⟩⟩
          · rw [if_pos ((h.live L).mpr ⟨S, hS⟩)]
          · -- The key has left its old lease.
            have hL := (h.owner k L).mpr ⟨S, hS, hmem⟩
            exact absurd ⟨rfl, h.positive L (e.map.live k L hL), (h.leaseOf_data hL).symm⟩ hold
      · rw [Function.update_of_ne hk, h.owner]
        simp [Write.onKeys, hk]
    · change Function.update e.map.owner key _ k = some L at hL
      show ∃ kv, Function.update e.map.data key _ k = some kv ∧ kv.lease = L
      by_cases hk : k = key
      · rw [hk, Function.update_self] at hL
        split_ifs at hL
        rw [hk, Function.update_self]
        exact ⟨_, rfl, Option.some.inj hL⟩
      · rw [Function.update_of_ne hk] at hL ⊢
        exact h.named k L hL
  | delete key rangeEnd =>
    refine hrest _ rfl rfl rfl (fun k => ?_) (fun k kv hkv => ?_) (fun k L => ?_) fun k L hL => ?_
    · classical
      simp only [Etcd.write, LeasedMap.data_remove, hdata, Write.onData, mem_span]
      split_ifs
      · rfl
      · exact h.data k
    · rw [Etcd.write, LeasedMap.data_remove] at hkv
      split_ifs at hkv
      exact h.keyed k kv hkv
    · classical
      rw [Etcd.write, LeasedMap.owner_remove, mem_span]
      constructor
      · intro hL
        split_ifs at hL with hk
        obtain ⟨S, hS, hmem⟩ := (h.owner k L).mp hL
        exact ⟨S, hS, hmem, fun hgone => hk hgone.1⟩
      · rintro ⟨S, hS, hmem, hkept⟩
        have hL := (h.owner k L).mpr ⟨S, hS, hmem⟩
        rw [if_neg]
        · exact hL
        · exact fun hk => hkept ⟨hk, h.positive L (e.map.live k L hL), (h.leaseOf_data hL).symm⟩
    · classical
      rw [Etcd.write, LeasedMap.owner_remove] at hL
      rw [Etcd.write, LeasedMap.data_remove]
      split_ifs at hL ⊢
      exact h.named k L hL

/-! ### Leases -/

theorem revoke (h : Represents s e) (hs : Indexed s) (L : Int) :
    Represents (s.revoke L).2 (e.revoke {L}) := by
  classical
  cases hL : s.leaseManager.leases.find? L with
  | none =>
    rw [revoke_unknown hL, Etcd.revoke_of_dead]
    · exact h
    · rintro L' rfl
      rw [← h.leases, LeaseManager.times, hL]
      rfl
  | some lease =>
    have hrevoked := hs.revoked hL
    obtain ⟨data, revision, hstore⟩ := kvStore_revoke s L
    have hkeys : ∀ k, k ∈ e.map.keys {L} ↔ k ∈ lease.keys := fun k => h.mem_keys hL
    have hcount : (e.map.keys {L}).ncard = lease.keys.keys.length := by
      have hset : e.map.keys {L} = ↑lease.keys.keys.toFinset := by
        ext k
        simp [hkeys, UnorderedSet.mem_keys]
      rw [hset, Set.ncard_coe_finset, List.toFinset_card_of_nodup lease.keys.nodup_keys]
    have hdata : ∀ k, (s.revoke L).2.data k = if k ∈ lease.keys then none else s.data k :=
      hrevoked.data
    refine ⟨fun k => ?_, fun k kv hkv => ?_, fun k L' => ?_, fun k L' hL' => ?_, funext fun L' => ?_,
      fun L' hL' => ?_, ?_, ?_, ?_, ?_, ?_⟩
    · simp only [Etcd.revoke, LeasedMap.data_revoke, hdata, hkeys]
      split_ifs
      · rfl
      · exact h.data k
    · rw [Etcd.revoke, LeasedMap.data_revoke] at hkv
      split_ifs at hkv
      exact h.keyed k kv hkv
    · rw [Etcd.revoke, LeasedMap.owner_revoke, LeasedMap.mem_keys_singleton, LeaseManager.keySet,
        hrevoked.leases]
      by_cases heq : L' = L
      · subst heq
        by_cases hown : e.map.owner k = some L' <;> simp [hown]
      · rw [if_neg heq, ← LeaseManager.keySet, ← h.owner]
        by_cases hown : e.map.owner k = some L
        · simp [hown, Ne.symm heq]
        · rw [if_neg hown]
    · rw [Etcd.revoke, LeasedMap.owner_revoke] at hL'
      rw [Etcd.revoke, LeasedMap.data_revoke]
      split_ifs at hL' ⊢
      exact h.named k L' hL'
    · rw [Etcd.revoke, LeasedMap.leases_revoke, LeaseManager.times, hrevoked.leases, ← h.leases]
      by_cases heq : L' = L <;> simp [heq, LeaseManager.times]
    · rw [Etcd.revoke, LeasedMap.leases_revoke] at hL'
      split_ifs at hL'
      · cases hL'
      · exact h.positive L' hL'
    · rw [hrevoked.revision, Etcd.revoke, hcount, h.revision]
    · exact hrevoked.nextLeaseId.trans h.nextLeaseId
    · rw [hstore]
      exact h.clusterId
    · rw [hstore]
      exact h.memberId
    · rw [hstore]
      exact h.wired

theorem revokeAll (h : Represents s e) (hs : Indexed s) (Ls : List Int) :
    Represents (s.revokeAll Ls) (e.revoke {L | L ∈ Ls}) := by
  induction Ls generalizing s e with
  | nil =>
    rw [Etcd.revoke_of_dead (by simp)]
    exact h
  | cons L Ls ih =>
    have hrest := ih (h.revoke hs L) (hs.revoke L)
    rw [Etcd.revoke_revoke] at hrest
    rw [show {L' | L' ∈ L :: Ls} = {L} ∪ {L' | L' ∈ Ls} by ext; simp]
    exact hrest

/-- The leases are revoked one after another, or all at once. -/
theorem checkExpiration (h : Represents s e) (hs : Indexed s) (now : Int) :
    Represents (s.checkExpiration now) (e.next (.checkExpiration now)) := by
  have hexpired : {L | L ∈ s.leaseManager.expiredLeases now} =
      {L | ∃ ttl expireTime, e.map.leases L = some (ttl, expireTime) ∧ expireTime ≤ now} := by
    ext L
    rw [Set.mem_ofPred_eq, Set.mem_ofPred_eq, LeaseManager.mem_expiredLeases_iff, ← h.leases]
    simp only [LeaseManager.times, Option.map_eq_some_iff, Prod.mk.injEq]
    constructor
    · rintro ⟨lease, hL, hle⟩
      exact ⟨_, _, ⟨lease, hL, rfl, rfl⟩, hle⟩
    · rintro ⟨_, _, ⟨lease, hL, rfl, rfl⟩, hle⟩
      exact ⟨lease, hL, hle⟩
  rw [checkExpiration_eq, Etcd.next, ← hexpired]
  exact h.revokeAll hs _

theorem grant (h : Represents s e) (hs : Indexed s) (now ttl : Int) : Represents (s.grant now ttl)
    { e.setLease e.nextLeaseId ttl now with nextLeaseId := e.nextLeaseId + 1 } := by
  obtain ⟨tag, hsound⟩ := hs
  have hnew : ∀ k, e.map.owner k ≠ some e.nextLeaseId := by
    intro k hk
    obtain ⟨S, hS, -⟩ := (h.owner k _).mp hk
    have hids := (hsound.ids e.nextLeaseId (by rw [LeaseManager.Live, hS]; rfl)).2
    rw [h.nextLeaseId] at hids
    exact lt_irrefl _ hids
  refine ⟨h.data, h.keyed, fun k L => ?_, h.named, funext fun L => ?_, fun L hL => ?_, h.revision,
    congrArg (· + 1) h.nextLeaseId, h.clusterId, h.memberId, h.wired⟩
  · show e.map.owner k = some L ↔ _
    rw [Server.grant, LeaseManager.keySet_grant, h.nextLeaseId]
    split_ifs with heq
    · subst heq
      simp [hnew]
    · exact h.owner k L
  · show _ = Function.update e.map.leases e.nextLeaseId _ L
    rw [Server.grant, LeaseManager.times_grant, h.nextLeaseId, Function.update_apply, h.leases]
  · change (Function.update e.map.leases e.nextLeaseId _ L).isSome at hL
    by_cases heq : L = e.nextLeaseId
    · rw [heq, ← h.nextLeaseId]
      exact hsound.next_pos
    · rw [Function.update_of_ne heq] at hL
      exact h.positive L hL

theorem keepAlive (h : Represents s e) {now L ttl : Int} {lm : LeaseManager}
    (hkeep : s.leaseManager.keepAlive now L = .ok (ttl, lm)) :
    (∃ expireTime, e.map.leases L = some (ttl, expireTime)) ∧
      Represents { s with leaseManager := lm } (e.setLease L ttl now) := by
  obtain ⟨⟨expireTime, hL⟩, htimes⟩ := LeaseManager.times_keepAlive hkeep
  rw [h.leases] at hL
  refine ⟨⟨expireTime, hL⟩, h.data, h.keyed, fun k L' => ?_, h.named, funext fun L' => ?_,
    fun L' hL' => ?_, h.revision, (LeaseManager.keepAlive_frame hkeep).1.trans h.nextLeaseId,
    h.clusterId, h.memberId, h.wired⟩
  · rw [LeaseManager.keySet_keepAlive hkeep]
    exact h.owner k L'
  · show _ = Function.update e.map.leases L _ L'
    rw [htimes, Function.update_apply, h.leases]
  · change (Function.update e.map.leases L _ L').isSome at hL'
    by_cases heq : L' = L
    · rw [heq]
      exact h.positive L (by rw [hL]; rfl)
    · rw [Function.update_of_ne heq] at hL'
      exact h.positive L' hL'

/-! ### Answers -/

theorem find?_data (h : Represents s e) (k : Bytes) :
    s.kvStore.data.find? k = (e.map.data k).map KeyInfo.ofKv := h.data k

theorem eq_ofKv (h : Represents s e) {k : Bytes} {info : KeyInfo}
    (hk : s.kvStore.data.find? k = some info) : info = .ofKv info.kv := by
  rw [h.find?_data, Option.map_eq_some_iff] at hk
  obtain ⟨kv, -, rfl⟩ := hk
  rfl

theorem keyed_kvStore (h : Represents s e) : s.kvStore.Keyed := by
  intro k info hk
  rw [h.find?_data, Option.map_eq_some_iff] at hk
  obtain ⟨kv, hkv, rfl⟩ := hk
  exact h.keyed k kv hkv

/-- The entries in a range are those of its key-values. -/
theorem mem_within (h : Represents s e) {start endKey : Bytes} {kv : KeyValue} :
    kv ∈ e.within start endKey ↔
      ∃ k, s.kvStore.data.find? k = some (.ofKv kv) ∧ keyInRange k start endKey = true := by
  refine exists_congr fun k => ?_
  rw [h.find?_data, mem_span, and_comm]
  refine and_congr_left fun _ => ?_
  constructor
  · intro hkv
    rw [hkv]
    rfl
  · intro hkv
    obtain ⟨kv', hkv', heq⟩ := Option.map_eq_some_iff.mp hkv
    rw [hkv', ← show kv' = kv from congrArg KeyInfo.kv heq]

theorem lists_matched (h : Represents s e) (start endKey : Bytes) :
    Lists (e.within start endKey) ((s.matched start endKey).map fun p => p.2.kv) := by
  have hkey : ∀ p ∈ s.matched start endKey, p.2.kv.key = p.1 := fun p hp =>
    h.keyed_kvStore p.1 p.2 (mem_matched.mp hp).1
  refine ⟨?_, fun kv => ?_⟩
  · have hnodup : ((s.matched start endKey).map Prod.fst).Nodup :=
      ((List.filter_sublist (l := s.kvStore.data.toList)).map Prod.fst).nodup
        s.kvStore.data.nodup_keys
    rw [← List.map_congr_left hkey] at hnodup
    exact .of_map KeyValue.key (by rwa [List.map_map])
  · rw [List.mem_map, h.mem_within]
    constructor
    · rintro ⟨⟨k, info⟩, hp, rfl⟩
      obtain ⟨hk, hr⟩ := mem_matched.mp hp
      exact ⟨k, hk.trans (congrArg some (h.eq_ofKv hk)), hr⟩
    · rintro ⟨k, hk, hr⟩
      exact ⟨(k, .ofKv kv), mem_matched.mpr ⟨hk, hr⟩, rfl⟩

theorem ranges (h : Represents s e) (r : RangeRequest) : e.Ranges r
    (s.kvStore.rangeInternal r.key r.rangeEnd r.limit r.countOnly r.keysOnly) := by
  have hperm := ((s.kvStore.sortedInfos_perm r.key r.rangeEnd).map KeyInfo.kv).symm
  rw [List.map_map] at hperm
  refine ⟨(s.kvStore.sortedInfos r.key r.rangeEnd).map KeyInfo.kv,
    (h.lists_matched r.key r.rangeEnd).of_perm hperm, ?_, ?_⟩
  · exact List.pairwise_map.mpr (KVStore.sortedInfos_pairwise r.key r.rangeEnd h.keyed_kvStore)
  · rw [KVStore.rangeInternal_eq]
    split_ifs
    · rw [← List.map_take, List.map_map]
      rfl
    · rw [List.map_map]
      rfl

theorem header (h : Represents s e) : KVService.responseHeader s = e.header := by
  rw [KVService.responseHeader, Etcd.header, KVStore.currentRevision, h.clusterId, h.memberId,
    h.revision]

/-! ### The operations of the store -/

theorem bump (h : Represents s e) : Represents (s.setRevision (s.kvStore.revision + 1)) e.bump :=
  { h with revision := congrArg (· + 1) h.revision }

/-- An operation that makes one write, at the next revision. -/
theorem exec (h : Represents s e) {o : KvOp} {w : Write}
    (hbooks : (o.exec s).books = s.books.write w) : Represents (o.exec s) (e.bump.write w) := by
  obtain ⟨data, hstore⟩ := exec_kvStore s o
  have hwiring := exec_wiring s o
  refine h.bump.write w hbooks ⟨hwiring.leaseManager, hwiring.leases⟩ (exec_revision s o) ?_ ?_
  · rw [hstore]
    rfl
  · rw [hstore]
    rfl

theorem put (h : Represents s e) (key value : Bytes) (lease : Int) (prevKv : Option KeyValue) :
    Represents (s.put key value lease prevKv).2
      (e.bump.write (.put key value lease (e.revision + 1))) := by
  have hbooks := (put_done s key value lease prevKv).books_eq h.wired
  rw [h.revision] at hbooks
  exact exec (o := .put key value lease prevKv) h hbooks

theorem delete (h : Represents s e) (key rangeEnd : Bytes) (prevKvs : Bool) :
    Represents (s.delete key rangeEnd prevKvs).2 (e.bump.write (.delete key rangeEnd)) :=
  exec (o := .delete key rangeEnd prevKvs) h ((delete_done s key rangeEnd prevKvs).books_eq h.wired)

theorem prev (h : Represents s e) (r : PutRequest) : (if r.prevKv then
    some (((s.kvStore.data.find? r.key).map KeyInfo.kv).getD {}) else none) = e.prev r := by
  rw [Etcd.prev, h.find?_data]
  cases e.map.data r.key <;> rfl

/-- An operation of a transaction. -/
theorem txnOp (h : Represents s e) (revision : Int) (op : RequestOp) :
    e.AnswersOp op (s.txnOp revision op).1 ∧
      Represents (s.txnOp revision op).2 (e.apply revision op) := by
  cases op with
  | requestPut r =>
    refine ⟨congrArg (fun p => ResponseOp.responsePut { prevKv := p }) (h.prev r), ?_⟩
    exact h.write _ ((txnPut_done s revision r).books_eq h.wired)
      (txnOp_wiring s revision (.requestPut r)) rfl rfl rfl
  | requestDeleteRange r =>
    refine ⟨⟨_, h.lists_matched r.key r.rangeEnd, ?_⟩, ?_⟩
    · rw [Server.txnOp, txnDeleteRange]
      simp only [List.length_map]
      cases r.prevKv <;> rfl
    · exact h.write _ ((txnDeleteRange_done s r).books_eq h.wired)
        (txnOp_wiring s revision (.requestDeleteRange r)) rfl rfl rfl
  | requestRange r => exact ⟨⟨_, h.ranges r, rfl⟩, h⟩
  | requestTxn compares success failure => exact ⟨rfl, h⟩
  | notSet => exact ⟨rfl, h⟩

theorem txnOps (h : Represents s e) (revision : Int) (ops : List RequestOp) :
    Etcd.AnswersOps revision e ops (s.txnOps revision ops).1 ∧
      Represents (s.txnOps revision ops).2 (ops.foldl (Etcd.apply revision) e) := by
  induction ops generalizing s e with
  | nil => exact ⟨rfl, h⟩
  | cons op ops ih =>
    obtain ⟨hresp, hop⟩ := h.txnOp revision op
    obtain ⟨hresps, hops⟩ := ih hop
    exact ⟨⟨_, _, rfl, hresp, hresps⟩, hops⟩

theorem guard (h : Represents s e) (r : TxnRequest) :
    s.kvStore.evaluateCompares r.compare = true ↔ e.Guard r := by
  rw [KVStore.evaluateCompares_iff]
  refine forall₂_congr fun cmp _ => ?_
  rw [h.find?_data, evaluateCompare_ofKv]

theorem chosen (h : Represents s e) (r : TxnRequest) :
    s.chosenOps r.compare r.success r.failure = e.chosen r := by
  rw [chosenOps, Etcd.chosen]
  simp only [h.guard r]

theorem txn (h : Represents s e) (r : TxnRequest) :
    e.Answers (.txn r) (.txn (KVService.txn s r).1) ∧
      Represents (KVService.txn s r).2 (e.next (.txn r)) := by
  obtain ⟨hresps, hops⟩ := h.bump.txnOps (e.revision + 1) (e.chosen r)
  have hsnd : (KVService.txn s r).2 = ((s.setRevision (s.kvStore.revision + 1)).txnOps
      (e.revision + 1) (e.chosen r)).2 := by
    rw [KVService.txn, txn_snd, h.chosen, h.revision]
  rw [← hsnd] at hops
  have hheader : (KVService.txn s r).1.header = some e.bump.header := by
    show some { clusterId := (KVService.txn s r).2.kvStore.clusterId,
                memberId := (KVService.txn s r).2.kvStore.memberId,
                revision := s.kvStore.revision + 1, raftTerm := 1 } = some e.bump.header
    rw [hops.clusterId, hops.memberId, h.revision]
    rfl
  have hresponses : (KVService.txn s r).1.responses =
      ((s.setRevision (s.kvStore.revision + 1)).txnOps (e.revision + 1) (e.chosen r)).1 := by
    rw [KVService.txn, txn_responses, h.chosen, h.revision]
  have hsucceeded : (KVService.txn s r).1.succeeded = decide (e.Guard r) := by
    rw [KVService.txn, txn_succeeded, Bool.eq_iff_iff, decide_eq_true_eq]
    exact h.guard r
  refine ⟨⟨_, hresps, ?_⟩, hops⟩
  rw [← hheader, ← hresponses, ← hsucceeded]

/-! ### Requests -/

theorem deleteRange (h : Represents s e) (r : DeleteRangeRequest) :
    e.Answers (.deleteRange r) (.deleteRange (KVService.deleteRange s r).1) ∧
      Represents (KVService.deleteRange s r).2 (e.next (.deleteRange r)) := by
  have ht := h.delete r.key r.rangeEnd true
  refine ⟨⟨_, h.lists_matched r.key r.rangeEnd, ?_⟩, ht⟩
  show Response.deleteRange
    { header := some (KVService.responseHeader (s.delete r.key r.rangeEnd true).2),
      deleted := ((s.delete r.key r.rangeEnd true).1.getD []).length,
      prevKvs := if r.prevKv then (s.delete r.key r.rangeEnd true).1.getD [] else [] } = _
  rw [ht.header, delete_fst, if_pos rfl]
  rfl

theorem leaseRevoke (h : Represents s e) (hs : Indexed s) (r : LeaseRevokeRequest) :
    e.Answers (.leaseRevoke r) (s.serve (.leaseRevoke r)).1 ∧
      Represents (s.serve (.leaseRevoke r)).2 (e.next (.leaseRevoke r)) := by
  have ht := h.revoke hs r.id
  have hleases := h.find?_leases r.id
  rw [Server.serve, LeaseService.leaseRevoke, Etcd.Answers, Etcd.next, hleases]
  cases hL : s.leaseManager.leases.find? r.id with
  | none =>
    rw [revoke_unknown hL] at ht ⊢
    exact ⟨rfl, ht⟩
  | some lease =>
    obtain ⟨tag, hsound⟩ := hs
    have hrevoke := revoke_known hsound.callback hL
    rw [hrevoke] at ht ⊢
    exact ⟨congrArg (fun header => Response.leaseRevoke { header := some header }) ht.header, ht⟩

theorem leaseKeepAlive (h : Represents s e) (now : Int) (r : LeaseKeepAliveRequest) :
    e.Answers (.leaseKeepAlive now r) (s.serve (.leaseKeepAlive now r)).1 ∧
      Represents (s.serve (.leaseKeepAlive now r)).2 (e.next (.leaseKeepAlive now r)) := by
  have hleases := h.find?_leases r.id
  rw [Server.serve, LeaseService.serveKeepAlive, Etcd.Answers, Etcd.next]
  cases hL : s.leaseManager.leases.find? r.id with
  | none =>
    rw [hleases, hL, LeaseManager.keepAlive, hL]
    exact ⟨rfl, h⟩
  | some lease =>
    obtain ⟨lm, hkeep⟩ : ∃ lm, s.leaseManager.keepAlive now r.id = .ok (lease.ttl, lm) :=
      ⟨_, by rw [LeaseManager.keepAlive, hL]⟩
    obtain ⟨-, ht⟩ := h.keepAlive hkeep
    rw [hleases, hL, hkeep]
    refine ⟨congrArg Response.leaseKeepAlive ?_, ht⟩
    show LeaseKeepAliveResponse.mk (some (KVService.responseHeader _)) r.id lease.ttl = _
    rw [ht.header]
    rfl

theorem leaseTimeToLive (h : Represents s e) (now : Int) (r : LeaseTimeToLiveRequest) :
    e.Answers (.leaseTimeToLive now r) (s.serve (.leaseTimeToLive now r)).1 ∧
      Represents (s.serve (.leaseTimeToLive now r)).2 e := by
  have hleases := h.find?_leases r.id
  rw [Server.serve, LeaseService.leaseTimeToLive, LeaseManager.timeToLive, Etcd.Answers, hleases]
  cases hL : s.leaseManager.leases.find? r.id with
  | none => exact ⟨rfl, h⟩
  | some lease =>
    have hkeys : Lists (e.map.keys {r.id}) lease.keys.keys := by
      refine ⟨lease.keys.nodup_keys, fun k => ?_⟩
      rw [h.mem_keys hL, UnorderedSet.mem_keys]
    refine ⟨⟨lease.keys.keys, hkeys, congrArg Response.leaseTimeToLive ?_⟩, h⟩
    rw [← h.header]
    cases r.keys <;> rfl

/-- **A request is answered as the abstract server may answer it.** -/
theorem serve (h : Represents s e) (hs : Indexed s) (req : Request) :
    e.Answers req (s.serve req).1 ∧ Represents (s.serve req).2 (e.next req) := by
  cases req with
  | put r =>
    have ht := h.put r.key r.value r.lease (if r.prevKv then some {} else none)
    refine ⟨?_, ht⟩
    show Response.put (KVService.put s r).1 = _
    rw [put_response, h.prev, show KVService.responseHeader (KVService.put s r).2 = _ from ht.header]
    rfl
  | range r =>
    refine ⟨⟨_, h.ranges r, congrArg Response.range ?_⟩, h⟩
    rw [KVService.range, h.header]
    rfl
  | deleteRange r => exact h.deleteRange r
  | txn r => exact h.txn r
  | compact r =>
    exact ⟨congrArg (fun header => Response.compact { header := some header }) h.header, h⟩
  | leaseGrant now r =>
    have ht := h.grant hs now r.ttl
    refine ⟨congrArg Response.leaseGrant ?_, ht⟩
    show LeaseGrantResponse.mk (some (KVService.responseHeader (s.grant now r.ttl)))
      s.leaseManager.nextLeaseId r.ttl = _
    rw [ht.header, h.nextLeaseId]
    rfl
  | leaseKeepAlive now r => exact h.leaseKeepAlive now r
  | leaseRevoke r => exact h.leaseRevoke hs r
  | leaseTimeToLive now r => exact h.leaseTimeToLive now r
  | status =>
    refine ⟨congrArg Response.status ?_, h⟩
    rw [MaintenanceService.status, h.clusterId, h.memberId, KVStore.currentRevision, h.revision]
    rfl
  | watch sid r =>
    obtain ⟨hstore, hlm⟩ := serveWatch_rest s sid r
    exact ⟨rfl, h.congr hstore hlm⟩
  | checkExpiration now => exact ⟨rfl, h.checkExpiration hs now⟩

end Represents

/-! ### Runs -/

theorem represents_new (env : Env) : Represents (.new env) .new where
  data := fun _ => rfl
  keyed := nofun
  owner := by
    refine fun k L => iff_of_false (by simp [Etcd.new, LeasedMap.empty]) ?_
    rintro ⟨S, hS, -⟩
    cases hS
  named := nofun
  leases := rfl
  positive := nofun
  revision := rfl
  nextLeaseId := rfl
  clusterId := rfl
  memberId := rfl
  wired := rfl

theorem Indexed.serve {s : Server} (h : Indexed s) (req : Request) : Indexed (s.serve req).2 := by
  cases req with
  | put r =>
    exact h.exec (.kv (.put r.key r.value r.lease (if r.prevKv then some {} else none)))
  | deleteRange r => exact h.exec (.kv (.delete r.key r.rangeEnd true))
  | txn r => exact h.exec (.kv (.txn r.compare r.success r.failure))
  | range r => exact h
  | compact r => exact h
  | status => exact h
  | leaseGrant now r => exact h.exec (.grant now r.ttl)
  | leaseKeepAlive now r =>
    show Indexed (LeaseService.serveKeepAlive s _ now r).2.1
    rw [LeaseService.serveKeepAlive_server]
    exact h.exec (.keepAlive now r.id)
  | leaseRevoke r =>
    have hsame : (s.serve (.leaseRevoke r)).2 = (s.revoke r.id).2 := by
      rw [← LeaseService.leaseRevoke_snd, Server.serve]
      rcases LeaseService.leaseRevoke s r with ⟨⟨status⟩ | ⟨resp⟩, t⟩ <;> rfl
    rw [hsame]
    exact h.revoke r.id
  | leaseTimeToLive now r =>
    rw [Server.serve]
    cases LeaseService.leaseTimeToLive s now r <;> exact h
  | watch sid r =>
    obtain ⟨hstore, hlm⟩ := serveWatch_rest s sid r
    exact h.congr hstore hlm
  | checkExpiration now => exact h.call (.checkExpiration now)

/-- **The server simulates the abstract one.** -/
theorem simulation : Simulation (machine Server.serve) Etcd.machine
    fun s e => Represents s e ∧ Indexed s := by
  rintro s e req resp s' ⟨h, hs⟩ hserve
  obtain ⟨hanswer, ht⟩ := h.serve hs req
  have ht' := hs.serve req
  rw [hserve] at hanswer ht ht'
  exact ⟨_, ⟨hanswer, rfl⟩, ht, ht'⟩

/-- **The server refines the abstract one.** Whatever the layouts of its tables are, and whatever
requests it gets, its answers are a run of the abstract server; and its tables are then as the
abstract server says. -/
theorem server_refines (env : Env) (reqs : List Request) :
    ∃ e, Trace Etcd.machine .new (reqs.zip (answers Server.serve (.new env) reqs)) e ∧
      Represents (Run.final (fun s req => (s.serve req).2) (.new env) reqs) e := by
  obtain ⟨e, htrace, h, -⟩ := simulation.trace ⟨represents_new env, ⟨_, sound_new env⟩⟩
    (trace_answers Server.serve (.new env) reqs)
  exact ⟨e, htrace, h⟩

/-- **The layouts do not matter.** Servers whose tables are laid out differently answer the same
requests alike, watch requests apart, which are not answered here: the same, but for the order of the
key-values that a deletion gives back and of the keys of a lease. -/
theorem layouts_agree (env env' : Env) (reqs : List Request) :
    List.Forall₂ Response.Agree (answers Server.serve (.new env) reqs)
      (answers Server.serve (.new env') reqs) :=
  simulation.agree Etcd.determined ⟨represents_new env, ⟨_, sound_new env⟩⟩
    ⟨represents_new env', ⟨_, sound_new env'⟩⟩ reqs

end EtcdLite
