import EtcdLite.Lease.RevokeEffect
import Mathlib.Algebra.GroupWithZero.Nat

/-!
# What an expiry check does

`CheckExpiration` collects the leases whose time has come, in the iteration order of the lease
table, and revokes them one after another. Each revocation goes through the store and back to the
lease table, but it touches only the keys of its own lease, and no key is in the key sets of two
leases. So a list of revocations does what its leases say, in whatever order they come
(`Indexed.revokedAll`), and the check removes the expired leases and their keys and nothing else
(`check_expiration_exact`).
-/

namespace EtcdLite

open Server

/-- The revocations of some leases, one after another. -/
def Server.revokeAll (s : Server) (Ls : List Int) : Server :=
  Ls.foldl (fun s L => (s.revoke L).2) s

theorem checkExpiration_eq (s : Server) (now : Int) :
    s.checkExpiration now = s.revokeAll (s.leaseManager.expiredLeases now) := rfl

/-- The key is in the key set of one of the leases. -/
def Server.KeyOfAny (s : Server) (Ls : List Int) (k : Bytes) : Prop :=
  ∃ L ∈ Ls, ∃ lease, s.leaseManager.leases.find? L = some lease ∧ k ∈ lease.keys

/-- How many keys a lease has. -/
def Server.keyCount (s : Server) (L : Int) : ℕ :=
  ((s.leaseManager.leases.find? L).map fun lease => lease.keys.keys.length).getD 0

/-- What revoking some leases leaves: the leases without them, and the store without their keys,
each of which was there. -/
structure RevokedAll (s t : Server) (Ls : List Int) : Prop where
  leases : ∀ L, t.leaseManager.leases.find? L =
    if L ∈ Ls then none else s.leaseManager.leases.find? L
  removed : ∀ k, s.KeyOfAny Ls k → (s.kvStore.data.find? k).isSome ∧ t.kvStore.data.find? k = none
  kept : ∀ k, ¬ s.KeyOfAny Ls k → t.kvStore.data.find? k = s.kvStore.data.find? k
  revision : t.kvStore.revision = s.kvStore.revision + (Ls.map s.keyCount).sum

/-- A key is of the first lease, or of one of the others as they are when it is revoked. -/
theorem Revoked.keyOfAny_cons {s t : Server} {L : Int} {lease : LeaseInfo}
    (h : Revoked s t L lease) (hL : s.leaseManager.leases.find? L = some lease) {Ls : List Int}
    (hnew : L ∉ Ls) (k : Bytes) : s.KeyOfAny (L :: Ls) k ↔ k ∈ lease.keys ∨ t.KeyOfAny Ls k := by
  have hrest : t.KeyOfAny Ls k ↔ s.KeyOfAny Ls k := by
    refine exists_congr fun L' => and_congr_right fun hmem => ?_
    rw [h.leases, if_neg (ne_of_mem_of_not_mem hmem hnew)]
  rw [hrest]
  constructor
  · rintro ⟨L', hmem, lease', hL', hk⟩
    rcases List.mem_cons.mp hmem with rfl | hmem
    · rw [hL] at hL'
      cases hL'
      exact .inl hk
    · exact .inr ⟨L', hmem, lease', hL', hk⟩
  · rintro (hk | ⟨L', hmem, hL'⟩)
    · exact ⟨L, List.mem_cons_self, lease, hL, hk⟩
    · exact ⟨L', List.mem_cons_of_mem L hmem, hL'⟩

/-- A key of another lease is not a key of this one. -/
theorem Revoked.not_mem_of_keyOfAny {s t : Server} {L : Int} {lease : LeaseInfo}
    (h : Revoked s t L lease) (ht : Indexed t) {Ls : List Int} {k : Bytes}
    (hk : t.KeyOfAny Ls k) : k ∉ lease.keys := by
  intro hmem
  obtain ⟨L', -, lease', hL', hk'⟩ := hk
  obtain ⟨tag, hsound⟩ := ht
  obtain ⟨info, hinfo, -⟩ := hsound.bound hL' hk'
  have hgone := h.data k
  rw [if_pos hmem] at hgone
  rw [Server.data, hgone] at hinfo
  cases hinfo

/-- **Revocations of different leases add up.** -/
theorem Indexed.revokedAll {s : Server} (h : Indexed s) {Ls : List Int} (hnodup : Ls.Nodup)
    (hlive : ∀ L ∈ Ls, ∃ lease, s.leaseManager.leases.find? L = some lease) :
    RevokedAll s (s.revokeAll Ls) Ls := by
  induction Ls generalizing s with
  | nil =>
    refine ⟨fun L => by simp [revokeAll], ?_, fun k _ => rfl, by simp [revokeAll]⟩
    rintro k ⟨L, hmem, -⟩
    cases hmem
  | cons L Ls ih =>
    obtain ⟨hnew, hnodup⟩ := List.nodup_cons.mp hnodup
    obtain ⟨lease, hL⟩ := hlive L List.mem_cons_self
    have hfirst := h.revoked hL
    have hother : ∀ L' ∈ Ls, (s.revoke L).2.leaseManager.leases.find? L' =
        s.leaseManager.leases.find? L' := by
      intro L' hmem
      rw [hfirst.leases, if_neg (ne_of_mem_of_not_mem hmem hnew)]
    have hrest := ih (h.revoke L) hnodup fun L' hmem => by
      rw [hother L' hmem]
      exact hlive L' (List.mem_cons_of_mem L hmem)
    have hkeys := hfirst.keyOfAny_cons hL hnew
    rw [show s.revokeAll (L :: Ls) = (s.revoke L).2.revokeAll Ls from rfl]
    refine ⟨fun L' => ?_, fun k hk => ?_, fun k hk => ?_, ?_⟩
    · rw [hrest.leases, hfirst.leases]
      by_cases hmem : L' ∈ Ls <;> by_cases heq : L' = L <;> simp [hmem, heq]
    · by_cases hmine : k ∈ lease.keys
      · -- The first revocation removes it, and it is no key of the others then.
        refine ⟨hfirst.stored k hmine, ?_⟩
        have hnot : ¬ (s.revoke L).2.KeyOfAny Ls k := fun hany =>
          hfirst.not_mem_of_keyOfAny (h.revoke L) hany hmine
        rw [hrest.kept k hnot, hfirst.data, if_pos hmine]
      · obtain ⟨hstored, hgone⟩ := hrest.removed k (((hkeys k).mp hk).resolve_left hmine)
        rw [hfirst.data, if_neg hmine] at hstored
        exact ⟨hstored, hgone⟩
    · rw [hkeys, not_or] at hk
      rw [hrest.kept k hk.2, hfirst.data, if_neg hk.1]
    · have hcount : Ls.map (s.revoke L).2.keyCount = Ls.map s.keyCount :=
        List.map_congr_left fun L' hmem => by rw [keyCount, keyCount, hother L' hmem]
      have hone : s.keyCount L = lease.keys.keys.length := by
        rw [keyCount, hL]
        rfl
      rw [hrest.revision, hfirst.revision, hcount, List.map_cons, List.sum_cons, hone]
      push_cast
      omega

/-! ### The check -/

/-- The key is in the key set of a lease whose time has come. -/
def Server.Expires (s : Server) (now : Int) (k : Bytes) : Prop :=
  ∃ L lease, s.leaseManager.leases.find? L = some lease ∧ lease.expireTime ≤ now ∧ k ∈ lease.keys

theorem keyOfAny_expiredLeases {s : Server} {now : Int} {k : Bytes} :
    s.KeyOfAny (s.leaseManager.expiredLeases now) k ↔ s.Expires now k := by
  constructor
  · rintro ⟨L, hmem, lease, hL, hk⟩
    obtain ⟨lease', hL', hle⟩ := LeaseManager.mem_expiredLeases_iff.mp hmem
    rw [hL] at hL'
    cases hL'
    exact ⟨L, lease, hL, hle, hk⟩
  · rintro ⟨L, lease, hL, hle, hk⟩
    exact ⟨L, LeaseManager.mem_expiredLeases_iff.mpr ⟨lease, hL, hle⟩, lease, hL, hk⟩

/-- **The check, its leases taken in any order**: it does what its leases say. -/
theorem Indexed.revokedExpired {s : Server} (h : Indexed s) {now : Int} {order : List Int}
    (horder : order.Perm (s.leaseManager.expiredLeases now)) :
    RevokedAll s (s.revokeAll order) order := by
  refine h.revokedAll (horder.nodup_iff.mpr (s.leaseManager.nodup_expiredLeases now)) ?_
  intro L hmem
  obtain ⟨lease, hL, -⟩ := LeaseManager.mem_expiredLeases_iff.mp (horder.mem_iff.mp hmem)
  exact ⟨lease, hL⟩

/-- Two orders of the same revocations leave the same. -/
theorem RevokedAll.same {s t t' : Server} {Ls Ls' : List Int} (h : RevokedAll s t Ls)
    (h' : RevokedAll s t' Ls') (hperm : Ls'.Perm Ls) :
    t'.kvStore.data.find? = t.kvStore.data.find? ∧
      t'.leaseManager.leases.find? = t.leaseManager.leases.find? ∧
      t'.kvStore.revision = t.kvStore.revision := by
  have hkeys : ∀ k, s.KeyOfAny Ls' k ↔ s.KeyOfAny Ls k := fun k =>
    exists_congr fun L => and_congr_left fun _ => hperm.mem_iff
  refine ⟨funext fun k => ?_, funext fun L => ?_, ?_⟩
  · by_cases hk : s.KeyOfAny Ls k
    · rw [(h.removed k hk).2, (h'.removed k ((hkeys k).mpr hk)).2]
    · rw [h.kept k hk, h'.kept k fun hk' => hk ((hkeys k).mp hk')]
  · rw [h.leases, h'.leases]
    simp only [hperm.mem_iff]
  · rw [h.revision, h'.revision, (hperm.map s.keyCount).sum_nat]

/-- **Expiry checks are exact.** On every server that operations run to completion lead to, a
check at any reading of the clock leaves of the leases those whose time has not come, as they
were, and removes from the store the keys of the others and nothing else. It leaves the same
entries, leases and revision in whatever order the expired leases are collected and revoked; and
a second check at the same reading changes nothing. -/
theorem check_expiration_exact (env : Env) (ops : List Operation) (now : Int) :
    let s := Run.final Operation.exec (Server.new env) ops
    let t := s.checkExpiration now
    (∀ L lease, t.leaseManager.leases.find? L = some lease ↔
        s.leaseManager.leases.find? L = some lease ∧ now < lease.expireTime) ∧
      (∀ k, s.Expires now k →
        (s.kvStore.data.find? k).isSome ∧ t.kvStore.data.find? k = none) ∧
      (∀ k, ¬ s.Expires now k → t.kvStore.data.find? k = s.kvStore.data.find? k) ∧
      (∀ order : List Int, order.Perm (s.leaseManager.expiredLeases now) →
        let u := order.foldl (fun s L => (s.revoke L).2) s
        u.kvStore.data.find? = t.kvStore.data.find? ∧
          u.leaseManager.leases.find? = t.leaseManager.leases.find? ∧
          u.kvStore.revision = t.kvStore.revision) ∧
      t.checkExpiration now = t := by
  intro s t
  have hindexed : Indexed s := indexed_final env ops
  have hdone : RevokedAll s t (s.leaseManager.expiredLeases now) :=
    hindexed.revokedExpired (.refl _)
  have hleases : ∀ L lease, t.leaseManager.leases.find? L = some lease ↔
      s.leaseManager.leases.find? L = some lease ∧ now < lease.expireTime := by
    intro L lease
    rw [hdone.leases]
    split_ifs with hmem
    · obtain ⟨lease', hL, hle⟩ := LeaseManager.mem_expiredLeases_iff.mp hmem
      simp only [hL, Option.some.injEq, false_iff, not_and, not_lt]
      rintro rfl
      exact hle
    · refine (and_iff_left_of_imp fun hL => ?_).symm
      by_contra hle
      exact hmem (LeaseManager.mem_expiredLeases_iff.mpr ⟨lease, hL, by omega⟩)
  refine ⟨hleases, fun k hk => hdone.removed k (keyOfAny_expiredLeases.mpr hk),
    fun k hk => hdone.kept k (keyOfAny_expiredLeases.not.mpr hk), fun order horder => ?_, ?_⟩
  · exact hdone.same (hindexed.revokedExpired horder) horder
  · -- No lease is left to collect.
    have hnone : t.leaseManager.expiredLeases now = [] := by
      rw [List.eq_nil_iff_forall_not_mem]
      intro L hmem
      obtain ⟨lease, hL, hle⟩ := LeaseManager.mem_expiredLeases_iff.mp hmem
      have hlt := ((hleases L lease).mp hL).2
      omega
    rw [checkExpiration_eq, hnone]
    rfl

end EtcdLite
