import EtcdLite.Lease.Leased

/-!
# What a revocation does

`Revoke` copies the keys of the lease, deletes each through the callback, and erases the lease;
each deletion goes back to the lease manager to take the key from the key set of its lease. On a
server where every operation has run to completion, each of these keys is in the store and bound
to the lease that is being revoked. So the other leases are not touched, and what is left is the
store without the keys of the lease and the leases without it (`revoke_exact`).
-/

namespace EtcdLite

open Server

/-- An operation of the server, run to completion. -/
inductive Operation where
  /-- `Put`, `Delete`, `Txn`, `Grant`, `KeepAlive`, `Revoke` or `CheckExpiration`. -/
  | call (c : Call)
  | registerWatcher (req : WatchCreateRequest) (stream : Option StreamId)
  | cancelWatcher (watchId : Int)

/-- Running it. -/
def Operation.exec (s : Server) : Operation → Server
  | .call c => c.exec s
  | .registerWatcher req stream => (s.registerWatcher req stream).2.2
  | .cancelWatcher watchId => (s.cancelWatcher watchId).2

theorem Indexed.operation {s : Server} (h : Indexed s) (op : Operation) :
    Indexed (op.exec s) := by
  cases op with
  | call c => exact h.call c
  | registerWatcher req stream => exact h.congr rfl rfl
  | cancelWatcher watchId => exact h.congr rfl rfl

/-! ### Deleting the keys of a lease -/

/-- If the key is there, it is bound to the lease. -/
def OnlyBoundTo (s : Server) (L : Int) (k : Bytes) : Prop :=
  ∀ info, s.data k = some info → info.kv.lease = L

/-- Deleting a key leaves every lease alone but the one it is bound to. -/
theorem find?_deleteKeyCallback {s : Server} {L : Int} {k : Bytes} (h : OnlyBoundTo s L k)
    {L' : Int} (hne : L' ≠ L) : (s.deleteKeyCallback k).leaseManager.leases.find? L' =
      s.leaseManager.leases.find? L' := by
  rw [deleteKeyCallback, delete_leaseManager, eraseMatched, matched_nil]
  cases hk : s.kvStore.data.find? k with
  | none => rfl
  | some info =>
    obtain rfl := h info hk
    simp only [detachAndErase, Option.toList_some, List.map_cons, List.map_nil, List.foldl_cons,
      List.foldl_nil]
    split_ifs
    · rw [LeaseManager.detachKey_snd, LeaseManager.modifyKeys, UnorderedMap.find?_modify,
        if_neg hne]
    · rfl

theorem find?_deleteKeys {s : Server} {L : Int} {ks : List Bytes}
    (h : ∀ k ∈ ks, OnlyBoundTo s L k) {L' : Int} (hne : L' ≠ L) :
    (ks.foldl deleteKeyCallback s).leaseManager.leases.find? L' =
      s.leaseManager.leases.find? L' := by
  induction ks generalizing s with
  | nil => rfl
  | cons k ks ih =>
    have hrest : ∀ k' ∈ ks, OnlyBoundTo (s.deleteKeyCallback k) L k' := by
      intro k' hk' info hinfo
      rw [data_deleteKeyCallback] at hinfo
      split_ifs at hinfo
      exact h k' (List.mem_cons_of_mem k hk') info hinfo
    rw [List.foldl_cons, ih hrest, find?_deleteKeyCallback (h k List.mem_cons_self) hne]

theorem revision_deleteKeys (s : Server) (ks : List Bytes) :
    (ks.foldl deleteKeyCallback s).kvStore.revision = s.kvStore.revision + ks.length := by
  induction ks generalizing s with
  | nil => simp
  | cons k ks ih =>
    have hone : (s.deleteKeyCallback k).kvStore.revision = s.kvStore.revision + 1 :=
      exec_revision s (.delete k [] false)
    rw [List.foldl_cons, ih, hone, List.length_cons]
    push_cast
    omega

theorem wiring_deleteKeys (s : Server) (ks : List Bytes) :
    SameWiring s (ks.foldl deleteKeyCallback s) := by
  induction ks generalizing s with
  | nil => exact .refl s
  | cons k ks ih => exact (delete_wiring s k [] false).trans (ih _)

/-! ### Revocations -/

/-- In a sound server, the keys of a lease are in the store, bound to it. -/
theorem Sound.bound {s : Server} {tag : Tag} (h : Sound s tag) {L : Int} {lease : LeaseInfo}
    (hL : s.leaseManager.leases.find? L = some lease) {k : Bytes} (hk : k ∈ lease.keys) :
    ∃ info, s.data k = some info ∧ info.kv.lease = L := by
  have hexact := h.exact L _ (LeaseManager.keySet_of_find? hL) k
  obtain ⟨info, hinfo, hlease, -⟩ := hexact.mp hk
  exact ⟨info, hinfo, hlease⟩

/-- What the revocation of a lease leaves: the leases without it, and the store without its keys,
each of which was there. -/
structure Revoked (s t : Server) (L : Int) (lease : LeaseInfo) : Prop where
  leases : ∀ L', t.leaseManager.leases.find? L' =
    if L' = L then none else s.leaseManager.leases.find? L'
  nextLeaseId : t.leaseManager.nextLeaseId = s.leaseManager.nextLeaseId
  data : ∀ k, t.kvStore.data.find? k = if k ∈ lease.keys then none else s.kvStore.data.find? k
  stored : ∀ k ∈ lease.keys, (s.kvStore.data.find? k).isSome
  revision : t.kvStore.revision = s.kvStore.revision + lease.keys.keys.length

/-- Where the index is exact, a revocation does just this. -/
theorem Indexed.revoked {s : Server} (h : Indexed s) {L : Int} {lease : LeaseInfo}
    (hL : s.leaseManager.leases.find? L = some lease) : Revoked s (s.revoke L).2 L lease := by
  obtain ⟨tag, hsound⟩ := h
  have hbound : ∀ k ∈ lease.keys.keys, OnlyBoundTo s L k := by
    intro k hk info hinfo
    obtain ⟨info', hinfo', hlease⟩ := hsound.bound hL (UnorderedSet.mem_keys.mp hk)
    rw [hinfo] at hinfo'
    rw [Option.some.inj hinfo', hlease]
  rw [revoke_known hsound.callback hL]
  refine ⟨fun L' => ?_, ?_, fun k => ?_, fun k hk => ?_, ?_⟩
  · refine (UnorderedMap.find?_erase ..).trans ?_
    split_ifs with hne
    · rfl
    · exact find?_deleteKeys hbound hne
  · exact (wiring_deleteKeys s lease.keys.keys).leases.nextLeaseId
  · refine (data_deleteKeys s lease.keys.keys k).trans ?_
    simp only [UnorderedSet.mem_keys]
    rfl
  · obtain ⟨info, hinfo, -⟩ := hsound.bound hL hk
    exact Option.isSome_iff_exists.mpr ⟨info, hinfo⟩
  · exact revision_deleteKeys s lease.keys.keys

/-- Operations run to completion lead to servers whose index is exact. -/
theorem indexed_final (env : Env) (ops : List Operation) :
    Indexed (Run.final Operation.exec (Server.new env) ops) :=
  Run.invariant Operation.exec (fun _ op h => h.operation op) ⟨_, sound_new env⟩ ops

/-- **Revocations are exact.** On every server that operations run to completion lead to, the
revocation of a lease that is not there says so and changes nothing. Otherwise it succeeds, and
leaves the leases without that one, and the store without exactly the keys of its key set, each
of which was there; the revision has advanced by their number. It leaves every other
entry and every other lease as it was, whatever the order of the key set. -/
theorem revoke_exact (env : Env) (ops : List Operation) (L : Int) :
    let s := Run.final Operation.exec (Server.new env) ops
    let t := (s.revoke L).2
    (s.leaseManager.leases.find? L = none → (s.revoke L).1.code = .notFound ∧ t = s) ∧
      ∀ lease, s.leaseManager.leases.find? L = some lease →
        (s.revoke L).1 = .OK ∧
        (∀ L', t.leaseManager.leases.find? L' =
          if L' = L then none else s.leaseManager.leases.find? L') ∧
        t.leaseManager.nextLeaseId = s.leaseManager.nextLeaseId ∧
        (∀ k, t.kvStore.data.find? k =
          if k ∈ lease.keys then none else s.kvStore.data.find? k) ∧
        (∀ k ∈ lease.keys, (s.kvStore.data.find? k).isSome) ∧
        t.kvStore.revision = s.kvStore.revision + lease.keys.keys.length := by
  intro s t
  have hindexed : Indexed s := indexed_final env ops
  refine ⟨fun hL => ?_, fun lease hL => ?_⟩
  · rw [revoke_unknown hL]
    exact ⟨rfl, congrArg Prod.snd (revoke_unknown hL)⟩
  · have hrevoked := hindexed.revoked hL
    have hok : (s.revoke L).1 = .OK :=
      congrArg Prod.fst (revoke_known hindexed.choose_spec.callback hL)
    exact ⟨hok, hrevoked.leases, hrevoked.nextLeaseId, hrevoked.data, hrevoked.stored,
      hrevoked.revision⟩

end EtcdLite
