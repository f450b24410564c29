import EtcdLite.Lease.Expiry

/-!
# The conditions are necessary

Each condition on the runs of revocations leaves out only steps that can do harm. From a
state in which a step fails the condition, the thread that is revoking has only to be left to
finish, with no other step in between:

* a put that does not spare a key yet to be deleted is deleted (`spares_necessary`);
* a put that joins a lease being revoked, with a key not yet to be deleted, outlives the lease
  (`joins_necessary`);
* a keep-alive of a lease still to be revoked is followed by the end of the lease, at the same
  reading of the clock (`inTime_necessary`).
-/

namespace EtcdLite

open Server

namespace System

theorem drive_clock (y : System) (t n : ℕ) : (y.drive t n).clock = y.clock := by
  induction n generalizing y with
  | zero => rfl
  | succ n ih => rw [drive_succ, ih, resume_clock]

/-- A thread that deletes some of its keys leaves another as it is. -/
theorem drive_data {y : System} {t : ℕ} {L : Int} {ks rest : List Bytes} {Ls : List Int}
    (h : y.threads t = .revoking L (ks ++ rest) Ls) {k : Bytes} (hk : k ∉ ks) :
    (y.drive t ks.length).server.data k = y.server.data k := by
  obtain ⟨-, hserver⟩ := drive_deleting h
  rw [hserver, data_deleteKeys, if_neg hk]

/-! ### Sparing, and joining -/

/-- After a put that does not spare a key, the revoking thread comes to delete the key, which
is not bound to its lease. -/
theorem spares_necessary {y : System} {op : KvOp} (h : ¬ y.Spares (.kv op)) :
    ∃ t n L k ks Ls info, ((y.step (.kv op)).drive t n).threads t = .revoking L (k :: ks) Ls ∧
      ((y.step (.kv op)).drive t n).server.kvStore.data.find? k = some info ∧
        info.kv.lease ≠ L := by
  simp only [Spares, SparesLease, not_forall] at h
  obtain ⟨M, k, p, hp, hM, t, L, ks, Ls, hth, hk, hne⟩ := h
  obtain ⟨ks₁, ks₂, rfl, hk₁⟩ := List.eq_append_cons_of_mem hk
  obtain ⟨hthread, -⟩ := drive_deleting (y := y.step (.kv op)) (t := t) hth
  have hdata := drive_data (y := y.step (.kv op)) (t := t) hth hk₁
  rcases exec_data_cases y.server op k with ⟨p', info, hp', hinfo, hlease⟩ | ⟨hnone, -⟩ | ⟨hnone, -⟩
  · refine ⟨t, ks₁.length, L, k, ks₂, Ls, info, hthread, hdata.trans hinfo, ?_⟩
    obtain rfl := Option.some.inj (hp.symm.trans hp')
    rw [hlease, hM]
    exact Ne.symm hne
  · exact absurd (hp.symm.trans hnone) (by simp)
  · exact absurd (hp.symm.trans hnone) (by simp)

/-- After a put that joins a lease behind the back of its revocation, the revoking thread
erases the lease, and the key is still bound to it. -/
theorem joins_necessary {y : System} {op : KvOp} (h : ¬ y.Joins (.kv op)) :
    ∃ t n k info, ((y.step (.kv op)).drive t n).server.kvStore.data.find? k = some info ∧
      ((y.step (.kv op)).drive t n).server.leaseManager.leases.find? info.kv.lease = none := by
  simp only [Joins, not_forall] at h
  obtain ⟨k, p, hp, t, ks, Ls, hth, hk⟩ := h
  obtain ⟨-, hserver⟩ := drive_revoking (y := y.step (.kv op)) (t := t) hth
  rcases exec_data_cases y.server op k with ⟨p', info, hp', hinfo, hlease⟩ | ⟨hnone, -⟩ | ⟨hnone, -⟩
  · obtain rfl := Option.some.inj (hp.symm.trans hp')
    refine ⟨t, ks.length + 1, k, info, ?_, ?_⟩
    · rw [hserver]
      refine (data_deleteKeys _ ks k).trans ?_
      rw [if_neg hk]
      exact hinfo
    · rw [hserver, hlease]
      exact (UnorderedMap.find?_erase ..).trans (if_pos rfl)
  · exact absurd (hp.symm.trans hnone) (by simp)
  · exact absurd (hp.symm.trans hnone) (by simp)

/-! ### Keep-alives -/

/-- A lease is gone once it has been revoked. -/
theorem revoke_not_live (s : Server) (L : Int) : ¬ (s.revoke L).2.leaseManager.Live L := by
  unfold Server.revoke
  cases hkeys : s.leaseManager.getLeaseKeys L with
  | error rc =>
    rw [LeaseManager.live_iff]
    rintro ⟨info, hinfo⟩
    cases hkeys.symm.trans (LeaseManager.getLeaseKeys_known hinfo)
  | ok keys =>
    simp [LeaseManager.Live, LeaseManager.keySet_erase]

/-- A lease that a thread is to revoke is gone after some steps of the thread. -/
theorem drive_revokes {y : System} {t : ℕ} {L : Int} (h : (y.threads t).Revokes L) :
    ∃ n, ¬ (y.drive t n).server.leaseManager.Live L := by
  have hpending : ∀ (Ls : List Int) (y : System), y.threads t = .pending Ls → L ∈ Ls →
      ∃ n, ¬ (y.drive t n).server.leaseManager.Live L := by
    intro Ls y hth hL
    obtain ⟨before, after, rfl⟩ := List.append_of_mem hL
    obtain ⟨n, hthread, -⟩ := drive_pending hth
    obtain ⟨m, -, hserver⟩ := drive_revoke hthread
    refine ⟨n + m, ?_⟩
    rw [drive_add, hserver]
    exact revoke_not_live _ L
  cases hth : y.threads t with
  | collecting now =>
    rw [hth] at h
    cases h
  | pending Ls =>
    rw [hth] at h
    exact hpending Ls y hth h
  | revoking L' ks Ls =>
    rw [hth] at h
    obtain ⟨hthread, hserver⟩ := drive_revoking hth
    rcases h with rfl | hL
    · refine ⟨ks.length + 1, ?_⟩
      rw [hserver, Atom.exec, LeaseManager.Live, LeaseManager.keySet_erase, if_pos rfl]
      exact Bool.false_ne_true
    · obtain ⟨m, hm⟩ := hpending Ls _ hthread hL
      exact ⟨ks.length + 1 + m, by rwa [drive_add]⟩

/-- After a keep-alive of a lease that a thread has still to revoke, the thread erases the
lease before the clock moves. -/
theorem inTime_necessary {y : System} {t : ℕ} {L : Int} (h : (y.threads t).Revokes L) :
    ∃ n, ((y.step (.keepAlive L)).drive t n).clock = y.clock ∧
      ((y.step (.keepAlive L)).drive t n).server.leaseManager.leases.find? L = none := by
  obtain ⟨n, hn⟩ := drive_revokes (y := y.step (.keepAlive L)) h
  refine ⟨n, drive_clock .., ?_⟩
  rw [LeaseManager.live_iff] at hn
  by_contra hne
  exact hn (Option.ne_none_iff_exists'.mp hne)

end System

end EtcdLite
