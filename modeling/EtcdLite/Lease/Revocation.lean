import EtcdLite.Lease.Leased
import EtcdLite.Lease.System

/-!
# Revocation among other operations

`Revoke` works on a copy of the lease's keys. Between the copy and the end of the `Revoke`
any other operation may run, and the copy goes stale in two ways.

* A key of the copy is put again, without a lease or with another one. It is deleted all the
  same, and the newer write is lost (`revoke_destroys`). This is so only when a put lands on
  a key still to be deleted (`revoke_deletes_own`).
* A key is put with the lease, and is not in the copy, or has been deleted already. The
  lease is erased and the key stays, bound to a lease that is not there (`revoke_misses`).
  This is so only when a put with the lease lands on a key not still to be deleted
  (`revoke_leaves_none`).
-/

namespace EtcdLite

open Server

namespace System

/-! ### What a step does to the data -/

/-- The put of a key that a client's operation leaves. -/
def leaves (y : System) (k : Bytes) : Act → Option PutRecord
  | .kv op => op.leaves y.server k
  | .grant _ | .keepAlive _ | .revoke _ _ | .checkExpiration _ | .resume _ | .tick _ => none

theorem data_resume (y : System) (t : ℕ) (k : Bytes) :
    (y.resume t).server.data k = none ∨ (y.resume t).server.data k = y.server.data k := by
  generalize hz : y.resume t = z
  cases resume_cases hz with
  | idle h => exact .inr rfl
  | collected h => exact .inr rfl
  | missing h => exact .inr rfl
  | copied h hkeys => exact .inr rfl
  | erased h => exact .inr rfl
  | @deleted L k' ks Ls h =>
    have hd := data_deleteKeyCallback y.server k' k
    split_ifs at hd
    · exact .inl hd
    · exact .inr hd

/-- After a step a key is bound to the lease of the put that the step leaves, or is absent,
or is as it was. -/
theorem data_step_cases (y : System) (a : Act) (k : Bytes) :
    (∃ p info, y.leaves k a = some p ∧ (y.step a).server.data k = some info ∧
      info.kv.lease = p.lease) ∨
    (y.step a).server.data k = none ∨ (y.step a).server.data k = y.server.data k := by
  cases a with
  | kv op =>
    rcases exec_data_cases y.server op k with h | ⟨-, h⟩ | ⟨-, -, h⟩
    · exact .inl h
    · exact .inr (.inl h)
    · exact .inr (.inr h)
  | grant ttl => exact .inr (.inr rfl)
  | tick d => exact .inr (.inr rfl)
  | keepAlive L =>
    exact .inr (.inr (congrFun (data_keepAlive y.server y.clock L) k))
  | revoke t L =>
    rw [step]
    split_ifs <;> exact .inr (.inr rfl)
  | checkExpiration t =>
    rw [step]
    split_ifs <;> exact .inr (.inr rfl)
  | resume t => exact .inr (y.data_resume t k)

theorem indexed_step {y : System} (h : Indexed y.server) (a : Act) : Indexed (y.step a).server := by
  obtain ⟨tag, h⟩ := h
  exact ⟨_, sound_step h a⟩

/-! ### The copy has no key of another lease -/

/-- A `Revoke` in progress: if a key it has yet to delete is bound to `M`, then `M` is the
lease it revokes. -/
def OwnKeys (M : Int) (d : Data) : Thread → Prop
  | .revoking L ks _ => ∀ k ∈ ks, ∀ info, d k = some info → info.kv.lease = M → L = M
  | .collecting _ | .pending _ => True

/-- The step leaves no put with `M` on a key that a `Revoke` of another lease has yet to
delete. -/
def SparesLease (M : Int) (y : System) (a : Act) : Prop :=
  ∀ k p, y.leaves k a = some p → p.lease = M →
    ∀ t L ks Ls, y.threads t = .revoking L ks Ls → k ∈ ks → L = M

/-- The step leaves no put with another lease, or without one, on a key that a `Revoke` in
progress has yet to delete. -/
def Spares (y : System) (a : Act) : Prop := ∀ M, y.SparesLease M a

/-- The next step of a thread keeps to its lease's keys. -/
theorem ownKeys_resume {M : Int} {y : System} (hindex : Indexed y.server)
    (h : ∀ t, OwnKeys M y.server.data (y.threads t)) (t : ℕ) :
    OwnKeys M (y.resume t).server.data ((y.resume t).threads t) := by
  have hdata := y.data_resume t
  have ht := h t
  generalize hz : y.resume t = z at hdata
  cases resume_cases hz with
  | idle h => exact ht
  | collected h =>
    rw [setThread_self]
    trivial
  | missing h =>
    rw [setThread_self]
    trivial
  | erased h =>
    rw [setThread_self]
    trivial
  | @copied L Ls keys h hkeys =>
    rw [setThread_self]
    intro k hk info hinfo hM
    obtain ⟨tag, hsound⟩ := hindex
    obtain ⟨S, hS, hmem⟩ := LeaseManager.mem_getLeaseKeys hkeys
    rw [hsound.callback, if_pos rfl] at hk
    obtain ⟨info', hinfo', hlease, -⟩ := (hsound.exact L S hS k).mp ((hmem k).mp hk)
    rw [Option.some.inj (hinfo.symm.trans hinfo')] at hM
    exact hlease.symm.trans hM
  | @deleted L k' ks Ls h =>
    rw [setThread_self]
    intro k hk info hinfo hM
    rw [h] at ht
    rcases hdata k with hnone | hsame
    · rw [hnone] at hinfo
      cases hinfo
    · exact ht k (List.mem_cons_of_mem _ hk) info (hsame ▸ hinfo) hM

/-- A step that spares the keys yet to be deleted keeps every `Revoke` to its own keys. -/
theorem ownKeys_step {M : Int} {y : System} (hindex : Indexed y.server)
    (h : ∀ t, OwnKeys M y.server.data (y.threads t)) {a : Act} (hspares : y.SparesLease M a) :
    ∀ t, OwnKeys M (y.step a).server.data ((y.step a).threads t) := by
  refine threads_step ?_ (fun _ _ _ => trivial) (fun _ _ => trivial) ?_
  · intro t
    have ht := h t
    cases hth : y.threads t with
    | collecting now => trivial
    | pending Ls => trivial
    | revoking L ks Ls =>
      rw [hth] at ht
      intro k hk info hinfo hM
      rcases y.data_step_cases a k with ⟨p, info', hp, hinfo', hlease⟩ | hnone | hsame
      · rw [Option.some.inj (hinfo.symm.trans hinfo'), hlease] at hM
        exact hspares k p hp hM t L ks Ls hth hk
      · rw [hnone] at hinfo
        cases hinfo
      · exact ht k hk info (hsame ▸ hinfo) hM
  · rintro t rfl
    exact ownKeys_resume hindex h t

theorem indexed_run (env : Env) (clock : Int) (acts : List Act) :
    Indexed ((start env clock).run acts).server :=
  ⟨_, sound_run env clock acts⟩

/-- After a run that spares the keys bound to `M`, every `Revoke` keeps away from them unless
it revokes `M`. -/
theorem ownKeys_run {M : Int} (env : Env) (clock : Int) {acts : List Act}
    (h : Run.Along step (SparesLease M) (start env clock) acts) :
    ∀ t, OwnKeys M ((start env clock).run acts).server.data
      (((start env clock).run acts).threads t) := by
  have hinv : Indexed ((start env clock).run acts).server ∧
      ∀ t, OwnKeys M ((start env clock).run acts).server.data
        (((start env clock).run acts).threads t) := by
    refine Run.invariant_along step
      (I := fun y => Indexed y.server ∧ ∀ t, OwnKeys M y.server.data (y.threads t)) ?_ ?_ h
    · intro y a hy hspares
      exact ⟨indexed_step hy.1 a, ownKeys_step hy.1 hy.2 hspares⟩
    · exact ⟨⟨_, sound_new env⟩, fun _ => trivial⟩
  exact hinv.2

end System

/-- **Revocation deletes only its own keys**, in every run whose puts spare the keys that a
`Revoke` in progress has yet to delete: the key that a `Revoke` deletes next is bound to its
lease, if it is there. -/
theorem revoke_deletes_own (env : Env) (clock : Int) (acts : List Act)
    (h : Run.Along System.step System.Spares (System.start env clock) acts) :
    let y := (System.start env clock).run acts
    ∀ t L k ks Ls, y.threads t = .revoking L (k :: ks) Ls →
      ∀ info, y.server.kvStore.data.find? k = some info → info.kv.lease = L := by
  intro y t L k ks Ls ht info hinfo
  have hown := System.ownKeys_run env clock (M := info.kv.lease)
    (Run.along_imp System.step (fun y a hy => hy _) h) t
  rw [ht] at hown
  exact (hown k List.mem_cons_self info hinfo rfl).symm

/-- A key that was put again without a lease, after the copy, is deleted all the same. -/
theorem revoke_destroys :
    let y := (System.start .plain 0).run
      [.grant 5, .kv (.put [107] [118] 1 none), .revoke 0 1, .resume 0,
        .kv (.put [107] [119] 0 none)]
    y.threads 0 = .revoking 1 [[107]] [] ∧
      (∃ info, y.server.kvStore.data.find? [107] = some info ∧ info.kv.lease = 0) ∧
      (y.resume 0).server.kvStore.data.find? [107] = none := by
  refine ⟨rfl, ⟨putInfo (some (putInfo none [107] [118] 1 2)) [107] [119] 0 3, by decide, rfl⟩, ?_⟩
  decide

/-- A `Revoke` with a key of its lease to delete, and another key put meanwhile. -/
theorem revoke_deletes_own_put :
    let y := (System.start .plain 0).run
      [.grant 5, .kv (.put [107] [118] 1 none), .revoke 0 1, .resume 0,
        .kv (.put [108] [119] 0 none)]
    y.threads 0 = .revoking 1 [[107]] [] ∧
      ∀ info, y.server.kvStore.data.find? [107] = some info → info.kv.lease = 1 := by
  refine ⟨rfl, ?_⟩
  have hspares : Run.Along System.step System.Spares (System.start .plain 0)
      [.grant 5, .kv (.put [107] [118] 1 none), .revoke 0 1, .resume 0,
        .kv (.put [108] [119] 0 none)] := by
    refine ⟨?_, ?_, ?_, ?_, ?_, trivial⟩
    · intro M k p hp
      cases hp
    · intro M k p hp hM t L ks Ls ht
      cases ht
    · intro M k p hp
      cases hp
    · intro M k p hp
      cases hp
    · -- The put is on a key that is not in the copy.
      intro M k p hp hM t L ks Ls ht hk
      by_cases ht0 : t = 0
      · subst ht0
        cases ht
        rw [List.mem_singleton.mp hk] at hp
        cases hp
      · change (if t = 0 then _ else if t = 0 then _ else Thread.pending []) = _ at ht
        rw [if_neg ht0, if_neg ht0] at ht
        cases ht
  exact revoke_deletes_own .plain 0 _ hspares 0 1 [107] [] [] rfl

/-! ### The copy has every key of the lease -/

namespace System

/-- A `Revoke` in progress: every key bound to its lease is yet to be deleted. -/
def AllKeys (d : Data) : Thread → Prop
  | .revoking L ks _ => ∀ k info, d k = some info → info.kv.lease = L → k ∈ ks
  | .collecting _ | .pending _ => True

/-- Each key the step leaves put names no lease, or one that is there. -/
def NamesLive (y : System) (a : Act) : Prop :=
  ∀ k p, y.leaves k a = some p → p.lease ≤ 0 ∨ y.server.leaseManager.Live p.lease

/-- The step leaves no put with a lease that is being revoked, unless the `Revoke` has the
key yet to delete. -/
def Joins (y : System) (a : Act) : Prop :=
  ∀ k p, y.leaves k a = some p →
    ∀ t ks Ls, y.threads t = .revoking p.lease ks Ls → k ∈ ks

/-- The server has its keys leased, and no `Revoke` in progress misses one. -/
structure Covered (y : System) : Prop where
  indexed : Indexed y.server
  leased : Leased y.server
  allKeys : ∀ t, AllKeys y.server.data (y.threads t)

/-- The next step of a thread that misses no key. -/
theorem Covered.resume {y : System} (hy : y.Covered) (t : ℕ) :
    Leased (y.resume t).server ∧ AllKeys (y.resume t).server.data ((y.resume t).threads t) := by
  have ht := hy.allKeys t
  generalize hz : y.resume t = z
  cases resume_cases hz with
  | idle h => exact ⟨hy.leased, ht⟩
  | collected h =>
    rw [setThread_self]
    exact ⟨hy.leased, trivial⟩
  | missing h =>
    rw [setThread_self]
    exact ⟨hy.leased, trivial⟩
  | @copied L Ls keys h hkeys =>
    rw [setThread_self]
    refine ⟨hy.leased, ?_⟩
    intro k info hinfo hlease
    obtain ⟨tag, hsound⟩ := hy.indexed
    obtain ⟨S, hS, hmem⟩ := LeaseManager.mem_getLeaseKeys hkeys
    have hpos : 0 < L := (hsound.ids L (by rw [LeaseManager.Live, hS]; rfl)).1
    obtain ⟨-, htag⟩ := (leased_iff hsound).mp hy.leased k info hinfo (by omega)
    rw [hsound.callback, if_pos rfl, hmem, hsound.exact L S hS k]
    exact ⟨info, hinfo, hlease, hlease ▸ htag⟩
  | @deleted L k' ks Ls h =>
    rw [setThread_self]
    refine ⟨hy.leased.delete hy.indexed k' [] false, ?_⟩
    intro k info hinfo hlease
    rw [h] at ht
    have hd := data_deleteKeyCallback y.server k' k
    replace hd : some info = if k = k' then none else y.server.data k := hinfo.symm.trans hd
    split_ifs at hd with hk
    exact (List.mem_cons.mp (ht k info hd.symm hlease)).resolve_left hk
  | @erased L Ls h =>
    rw [setThread_self]
    rw [h] at ht
    refine ⟨hy.leased.erase fun k info hinfo hlease => ?_, trivial⟩
    exact List.not_mem_nil (ht k info hinfo hlease)

/-- A step that names live leases keeps the keys leased. -/
theorem Covered.leased_step {y : System} (hy : y.Covered) {a : Act} (hlive : y.NamesLive a) :
    Leased (y.step a).server := by
  cases a with
  | kv op => exact (leased_kv_iff hy.indexed hy.leased op).mp hlive
  | grant ttl => exact hy.leased.grant hy.indexed _ _
  | keepAlive L => exact hy.leased.keepAlive hy.indexed _ _
  | tick d => exact hy.leased
  | resume t => exact (hy.resume t).1
  | revoke t L =>
    rw [step]
    split_ifs <;> exact hy.leased
  | checkExpiration t =>
    rw [step]
    split_ifs <;> exact hy.leased

/-- A step that names live leases, and joins no key to a lease that is being revoked behind
the back of the `Revoke`, keeps every key covered. -/
theorem Covered.step {y : System} (hy : y.Covered) {a : Act} (hlive : y.NamesLive a)
    (hjoins : y.Joins a) : (y.step a).Covered where
  indexed := indexed_step hy.indexed a
  leased := hy.leased_step hlive
  allKeys := by
    refine threads_step ?_ (fun _ _ _ => trivial) (fun _ _ => trivial) ?_
    · intro t
      have ht := hy.allKeys t
      cases hth : y.threads t with
      | collecting now => trivial
      | pending Ls => trivial
      | revoking L ks Ls =>
        rw [hth] at ht
        intro k info hinfo hlease
        rcases y.data_step_cases a k with ⟨p, info', hp, hinfo', hlease'⟩ | hnone | hsame
        · obtain rfl := Option.some.inj (hinfo.symm.trans hinfo')
          refine hjoins k p hp t ks Ls ?_
          rw [hth, ← hlease', hlease]
        · rw [hnone] at hinfo
          cases hinfo
        · exact ht k info (hsame ▸ hinfo) hlease
    · rintro t rfl
      exact (hy.resume t).2

end System

/-- **Revocation leaves no key of its lease**, in every run whose puts name leases that are
there, and join no key to a lease that is being revoked unless the key is yet to be deleted:
in every state each key's lease is there, and when a `Revoke` has erased its lease no key is
bound to it. -/
theorem revoke_leaves_none (env : Env) (clock : Int) (acts : List Act)
    (hlive : Run.Along System.step System.NamesLive (System.start env clock) acts)
    (hjoins : Run.Along System.step System.Joins (System.start env clock) acts) :
    let y := (System.start env clock).run acts
    (∀ k info, y.server.kvStore.data.find? k = some info → 0 < info.kv.lease →
      (y.server.leaseManager.leases.find? info.kv.lease).isSome) ∧
    ∀ t L Ls, y.threads t = .revoking L [] Ls →
      ∀ k info, (y.resume t).server.kvStore.data.find? k = some info → info.kv.lease ≠ L := by
  intro y
  have hy : y.Covered := by
    refine Run.invariant_along System.step (C := fun y a => y.NamesLive a ∧ y.Joins a)
      (fun y a hy hC => hy.step hC.1 hC.2) ⟨⟨_, sound_new env⟩, ?_, fun _ => trivial⟩
      ((Run.along_and System.step).mpr ⟨hlive, hjoins⟩)
    intro k info hk
    cases hk
  refine ⟨?_, ?_⟩
  · intro k info hk hpos
    obtain ⟨lease, hlease, -⟩ := hy.leased k info hk hpos
    rw [hlease]
    rfl
  · intro t L Ls ht k info hk hlease
    have hall := hy.allKeys t
    rw [ht] at hall
    have hsame : (y.resume t).server.data = y.server.data := by
      rw [System.resume, ht]
      rfl
    exact List.not_mem_nil (hall k info ((congrFun hsame k).symm.trans hk) hlease)

/-- A key put with the lease between the copy and the erasure stays when the lease is gone,
and no `Revoke` is in progress. -/
theorem revoke_misses :
    let before := (System.start .plain 0).run [.grant 5, .revoke 0 1, .resume 0]
    let y := before.run [.kv (.put [107] [118] 1 none), .resume 0]
    (before.server.leaseManager.leases.find? 1).isSome ∧ (∀ t, y.threads t = .pending []) ∧
      (∃ info, y.server.kvStore.data.find? [107] = some info ∧ info.kv.lease = 1) ∧
      y.server.leaseManager.leases.find? 1 = none := by
  refine ⟨rfl, ?_, ⟨putInfo none [107] [118] 1 2, by decide, rfl⟩, rfl⟩
  intro t
  by_cases ht : t = 0
  · rw [ht]
    rfl
  · show (if t = 0 then _ else if t = 0 then _ else if t = 0 then _ else Thread.pending []) = _
    rw [if_neg ht, if_neg ht, if_neg ht]

/-- A key put with the lease before its `Revoke` begins is deleted with it. -/
theorem revoke_leaves_none_put :
    let y := (System.start .plain 0).run
      [.grant 5, .kv (.put [107] [118] 1 none), .revoke 0 1, .resume 0, .resume 0]
    (∀ k info, y.server.kvStore.data.find? k = some info → 0 < info.kv.lease →
      (y.server.leaseManager.leases.find? info.kv.lease).isSome) ∧
    ∀ t L Ls, y.threads t = .revoking L [] Ls →
      ∀ k info, (y.resume t).server.kvStore.data.find? k = some info → info.kv.lease ≠ L := by
  have hlive : Run.Along System.step System.NamesLive (System.start .plain 0)
      [.grant 5, .kv (.put [107] [118] 1 none), .revoke 0 1, .resume 0, .resume 0] := by
    refine ⟨?_, ?_, ?_, ?_, ?_, trivial⟩
    · intro k p hp
      cases hp
    · -- The put names lease 1, which has been granted.
      intro k p hp
      refine .inr ?_
      by_cases hk : k = [107]
      · subst hk
        cases hp
        rfl
      · simp [System.leaves, KvOp.leaves, KvOp.writes, livePuts, List.rtakeWhile, Write.deletes,
          Write.putOf, Ne.symm hk] at hp
    · intro k p hp
      cases hp
    · intro k p hp
      cases hp
    · intro k p hp
      cases hp
  have hjoins : Run.Along System.step System.Joins (System.start .plain 0)
      [.grant 5, .kv (.put [107] [118] 1 none), .revoke 0 1, .resume 0, .resume 0] := by
    refine ⟨?_, ?_, ?_, ?_, ?_, trivial⟩
    · intro k p hp
      cases hp
    · intro k p hp t ks Ls ht
      cases ht
    · intro k p hp
      cases hp
    · intro k p hp
      cases hp
    · intro k p hp
      cases hp
  exact revoke_leaves_none .plain 0 _ hlive hjoins

end EtcdLite
