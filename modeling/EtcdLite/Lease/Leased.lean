import EtcdLite.Lease.Index

/-!
# Keys and their leases, one call after another

A key bound to a lease should be in that lease's key set: then revoking the lease, or its
expiry, deletes the key (`Leased`). `Put` and `Txn` ask the lease manager to attach the key,
and discard the answer; when there is no such lease, the key is stored with the lease's id
and nothing will ever delete it.

That is the only way it can go wrong when each call runs to completion: in a run of calls
every state is `Leased` exactly when every key that a `Put` or `Txn` leaves put names a
lease that is there, or none (`leased_runs_iff`).
-/

namespace EtcdLite

open Server

/-- Every key bound to a lease is in the key set of that lease. -/
def Leased (s : Server) : Prop :=
  ∀ k info, s.kvStore.data.find? k = some info → 0 < info.kv.lease →
    ∃ lease, s.leaseManager.leases.find? info.kv.lease = some lease ∧ k ∈ lease.keys

/-- The server's index is exact, by some tag. -/
def Indexed (s : Server) : Prop := ∃ tag, Sound s tag

theorem Indexed.exec {s : Server} (h : Indexed s) (a : Atom) : Indexed (a.exec s) := by
  obtain ⟨tag, h⟩ := h
  exact ⟨_, h.exec a⟩

/-- The index is of the store and the lease manager alone. -/
theorem Indexed.congr {s t : Server} (h : Indexed s) (hstore : t.kvStore = s.kvStore)
    (hlm : t.leaseManager = s.leaseManager) : Indexed t := by
  obtain ⟨tag, hsound⟩ := h
  have hbooks : t.books = s.books := by
    rw [Server.books, Server.books, Server.data, Server.data, hstore, hlm]
  exact ⟨tag, hstore ▸ hsound.wired, hlm ▸ hsound.callback, hlm ▸ hsound.next_pos,
    hlm ▸ hsound.ids, hlm ▸ hsound.tags, hbooks ▸ hsound.exact⟩

/-! ### What keeps the keys leased -/

/-- The keys are leased when each bound key's lease is there, and was when it was put. -/
theorem leased_iff {s : Server} {tag : Tag} (h : Sound s tag) : Leased s ↔
    ∀ k info, s.data k = some info → 0 < info.kv.lease →
      s.leaseManager.Live info.kv.lease ∧ info.kv.lease ∈ tag k := by
  constructor
  · intro hl k info hk hpos
    obtain ⟨lease, hlease, hmem⟩ := hl k info hk hpos
    obtain ⟨info', hk', -, htag⟩ := (h.exact _ _ (LeaseManager.keySet_of_find? hlease) k).mp hmem
    exact ⟨LeaseManager.live_iff.mpr ⟨lease, hlease⟩, htag⟩
  · intro hl k info hk hpos
    obtain ⟨hlive, htag⟩ := hl k info hk hpos
    obtain ⟨lease, hlease⟩ := LeaseManager.live_iff.mp hlive
    have hexact := h.exact _ _ (LeaseManager.keySet_of_find? hlease) k
    exact ⟨lease, hlease, hexact.mpr ⟨info, hk, rfl, htag⟩⟩

/-- Each key the operation leaves put names no lease, or one that is there. -/
def KvOp.NamesLive (s : Server) (op : KvOp) : Prop :=
  ∀ k p, op.leaves s k = some p → p.lease ≤ 0 ∨ s.leaseManager.Live p.lease

/-- An operation keeps the keys leased exactly when it names live leases. -/
theorem leased_kv_iff {s : Server} (h : Indexed s) (hl : Leased s) (op : KvOp) :
    op.NamesLive s ↔ Leased (op.exec s) := by
  obtain ⟨tag, h⟩ := h
  rw [leased_iff (h.kv op), Atom.retag_kv]
  simp only [live_exec h.wired]
  constructor
  · intro hnames k info hk hpos
    rcases exec_data_cases s op k with ⟨p, info', hp, hk', hlease⟩ | ⟨-, hnone⟩ | ⟨-, hkeep, hsame⟩
    · rw [hk'] at hk
      cases hk
      rw [retag_writes_put hp]
      rw [hlease] at hpos ⊢
      rcases hnames k p hp with hle | hlive
      · omega
      · exact ⟨hlive, hlive⟩
    · rw [hnone] at hk
      cases hk
    · rw [retag_writes_keep hkeep]
      exact (leased_iff h).mp hl k info (hsame ▸ hk) hpos
  · intro hl' k p hp
    rcases exec_data_cases s op k with ⟨p', info, hp', hk, hlease⟩ | ⟨hnone, -⟩ | ⟨hnone, -⟩
    · rw [hp] at hp'
      cases hp'
      by_cases hpos : 0 < info.kv.lease
      · rw [← hlease]
        exact .inr (hl' k info hk hpos).1
      · omega
    · rw [hp] at hnone
      cases hnone
    · rw [hp] at hnone
      cases hnone

theorem Leased.delete {s : Server} (hl : Leased s) (h : Indexed s) (key rangeEnd : Bytes)
    (prevKvs : Bool) : Leased ((KvOp.delete key rangeEnd prevKvs).exec s) := by
  refine (leased_kv_iff h hl _).mp fun k p hp => ?_
  rw [leaves_delete] at hp
  cases hp

theorem Leased.grant {s : Server} (hl : Leased s) (h : Indexed s) (now ttl : Int) :
    Leased (s.grant now ttl) := by
  obtain ⟨tag, h⟩ := h
  refine (leased_iff (h.grant now ttl)).mpr fun k info hk hpos => ?_
  obtain ⟨hlive, htag⟩ := (leased_iff h).mp hl k info hk hpos
  refine ⟨?_, htag⟩
  rw [LeaseManager.Live, Server.grant, LeaseManager.keySet_grant]
  split_ifs
  · rfl
  · exact hlive

theorem live_keepAlive (s : Server) (now leaseId L : Int) :
    (s.keepAlive now leaseId).leaseManager.Live L ↔ s.leaseManager.Live L := by
  cases hk : s.leaseManager.keepAlive now leaseId with
  | error rc => rw [keepAlive_error hk]
  | ok r =>
    obtain ⟨ttl, lm⟩ := r
    rw [keepAlive_ok hk, LeaseManager.Live, LeaseManager.Live, LeaseManager.keySet_keepAlive hk L]

theorem Leased.keepAlive {s : Server} (hl : Leased s) (h : Indexed s) (now leaseId : Int) :
    Leased (s.keepAlive now leaseId) := by
  obtain ⟨tag, h⟩ := h
  refine (leased_iff (h.keepAlive now leaseId)).mpr fun k info hk hpos => ?_
  rw [data_keepAlive] at hk
  rw [live_keepAlive]
  exact (leased_iff h).mp hl k info hk hpos

/-- A lease no key is bound to can be erased. -/
theorem Leased.erase {s : Server} (hl : Leased s) {L : Int}
    (hL : ∀ k info, s.data k = some info → info.kv.lease ≠ L) :
    Leased ((Atom.erase L).exec s) := by
  intro k info hk hpos
  obtain ⟨lease, hlease, hmem⟩ := hl k info hk hpos
  refine ⟨lease, ?_, hmem⟩
  show (s.leaseManager.leases.erase L).find? info.kv.lease = some lease
  rw [UnorderedMap.find?_erase, if_neg (hL k info hk), hlease]

/-! ### Revocation, run to completion -/

/-- Deleting one key through the callback. -/
theorem data_deleteKeyCallback (s : Server) (k k' : Bytes) :
    (s.deleteKeyCallback k).data k' = if k' = k then none else s.data k' := by
  have h := congrFun (data_delete s k [] false) k'
  simp only [keyInRange_nil] at h
  exact h

theorem data_deleteKeys (s : Server) (ks : List Bytes) (k : Bytes) :
    (ks.foldl deleteKeyCallback s).data k = if k ∈ ks then none else s.data k := by
  induction ks generalizing s with
  | nil => rfl
  | cons k' ks ih =>
    rw [List.foldl_cons, ih, data_deleteKeyCallback]
    by_cases hk : k ∈ ks <;> by_cases hk' : k = k' <;> simp [hk, hk']

/-- The revocation of a lease that is not there says so and does nothing. -/
theorem revoke_unknown {s : Server} {L : Int} (h : s.leaseManager.leases.find? L = none) :
    s.revoke L = (LeaseManager.leaseNotFound, s) := by
  have hkeys : s.leaseManager.getLeaseKeys L = .error LeaseManager.leaseNotFound := by
    rw [LeaseManager.getLeaseKeys, h]
  rw [Server.revoke, hkeys]

/-- The revocation of a lease deletes its keys and then erases it. -/
theorem revoke_known {s : Server} (hc : s.leaseManager.deleteKeyCallback = true) {L : Int}
    {lease : LeaseInfo} (h : s.leaseManager.leases.find? L = some lease) :
    s.revoke L = (.OK, (Atom.erase L).exec (lease.keys.keys.foldl deleteKeyCallback s)) := by
  simp only [Server.revoke, LeaseManager.getLeaseKeys_known h, hc, if_true]
  rfl

theorem Indexed.deleteKeys {s : Server} (h : Indexed s) (ks : List Bytes) :
    Indexed (ks.foldl deleteKeyCallback s) :=
  Run.invariant deleteKeyCallback (fun _ k hs => hs.exec (.kv (.delete k [] false))) h ks

theorem Indexed.revoke {s : Server} (h : Indexed s) (L : Int) : Indexed (s.revoke L).2 := by
  have hc : s.leaseManager.deleteKeyCallback = true := h.choose_spec.callback
  cases hL : s.leaseManager.leases.find? L with
  | none =>
    rw [revoke_unknown hL]
    exact h
  | some lease =>
    rw [revoke_known hc hL]
    exact (h.deleteKeys lease.keys.keys).exec (.erase L)

/-- A revocation keeps the keys leased: it deletes every key bound to the lease first. -/
theorem Leased.revoke {s : Server} (hl : Leased s) (h : Indexed s) (L : Int) :
    Leased (s.revoke L).2 := by
  obtain ⟨tag, hsound⟩ := h
  cases hlookup : s.leaseManager.leases.find? L with
  | none =>
    rw [revoke_unknown hlookup]
    exact hl
  | some lease =>
    rw [revoke_known hsound.callback hlookup]
    have hS := LeaseManager.keySet_of_find? hlookup
    have hpos : 0 < L := (hsound.ids L (by rw [LeaseManager.Live, hS]; rfl)).1
    have hdeleted : Indexed (lease.keys.keys.foldl deleteKeyCallback s) ∧
        Leased (lease.keys.keys.foldl deleteKeyCallback s) :=
      Run.invariant (I := fun s => Indexed s ∧ Leased s) deleteKeyCallback
        (fun _ k hs => ⟨hs.1.exec (.kv (.delete k [] false)), hs.2.delete hs.1 k [] false⟩)
        ⟨⟨tag, hsound⟩, hl⟩ lease.keys.keys
    refine hdeleted.2.erase fun k info hk hlease => ?_
    -- A key still bound to the lease was in its key set, and has been deleted.
    rw [data_deleteKeys] at hk
    split_ifs at hk with hin
    obtain ⟨hlive, htag⟩ := (leased_iff hsound).mp hl k info hk (by omega)
    rw [hlease] at htag
    exact hin (UnorderedSet.mem_keys.mpr ((hsound.exact L _ hS k).mpr ⟨info, hk, hlease, htag⟩))

/-! ### Runs of calls -/

/-- A call, run to completion. A call that reads the clock takes the reading as `now`. -/
inductive Call where
  | kv (op : KvOp)
  | grant (now ttl : Int)
  | keepAlive (now leaseId : Int)
  | revoke (leaseId : Int)
  | checkExpiration (now : Int)

/-- Running it. -/
def Call.exec (s : Server) : Call → Server
  | .kv op => op.exec s
  | .grant now ttl => s.grant now ttl
  | .keepAlive now leaseId => s.keepAlive now leaseId
  | .revoke leaseId => (s.revoke leaseId).2
  | .checkExpiration now => s.checkExpiration now

/-- If the call is a `Put` or a `Txn`, each key it leaves put names no lease, or one that is
there. -/
def Call.NamesLive (s : Server) : Call → Prop
  | .kv op => op.NamesLive s
  | .grant _ _ | .keepAlive _ _ | .revoke _ | .checkExpiration _ => True

theorem Indexed.call {s : Server} (h : Indexed s) (c : Call) : Indexed (c.exec s) := by
  cases c with
  | kv op => exact h.exec (.kv op)
  | grant now ttl => exact h.exec (.grant now ttl)
  | keepAlive now leaseId => exact h.exec (.keepAlive now leaseId)
  | revoke leaseId => exact h.revoke leaseId
  | checkExpiration now =>
    exact Run.invariant (fun s L => (s.revoke L).2) (fun _ L hs => hs.revoke L) h
      (s.leaseManager.expiredLeases now)

/-- A call keeps the keys leased exactly when it names live leases. -/
theorem leased_call_iff {s : Server} (h : Indexed s) (hl : Leased s) (c : Call) :
    c.NamesLive s ↔ Leased (c.exec s) := by
  cases c with
  | kv op => exact leased_kv_iff h hl op
  | grant now ttl => exact iff_of_true trivial (hl.grant h now ttl)
  | keepAlive now leaseId => exact iff_of_true trivial (hl.keepAlive h now leaseId)
  | revoke leaseId => exact iff_of_true trivial (hl.revoke h leaseId)
  | checkExpiration now =>
    refine iff_of_true trivial ?_
    exact (Run.invariant (I := fun s => Indexed s ∧ Leased s) (fun s L => (s.revoke L).2)
      (fun _ L hs => ⟨hs.1.revoke L, hs.2.revoke hs.1 L⟩) ⟨h, hl⟩
      (s.leaseManager.expiredLeases now)).2

/-- **No leased key without its lease**: in a run of calls on a new server, every key bound to
a lease is in that lease's key set, in every state, exactly when every call names leases
that are there. -/
theorem leased_runs_iff (env : Env) (calls : List Call) :
    (∀ pre, pre <+: calls → Leased (Run.final Call.exec (Server.new env) pre)) ↔
      Run.Along Call.exec Call.NamesLive (Server.new env) calls := by
  refine (Run.along_iff_always Call.exec (I := Indexed) (fun s c hs => hs.call c)
    (fun s c hs hl => leased_call_iff hs hl c) ⟨_, sound_new env⟩ ?_ calls).symm
  intro k info hk
  cases hk

/-- A put that names lease 7 in a new server stores a key bound to a lease that is not there. -/
theorem leased_fails : ¬ Leased ((Call.kv (.put [107] [118] 7 none)).exec (Server.new .plain)) := by
  intro h
  obtain ⟨lease, hlease, -⟩ := h [107] (putInfo none [107] [118] 7 2) (by decide) (by decide)
  cases hlease

end EtcdLite
