import EtcdLite.Lease.Revocation

/-!
# Keep-alive and expiry

`CheckExpiration` decides which leases have expired once, under the lock, and revokes them
afterwards without looking again. A `KeepAlive` that lands in between returns OK, and the
lease is erased all the same, long before its new deadline (`keepAlive_lost`).

When no `KeepAlive` of a lease finds it among those that a `CheckExpiration` has still to
revoke, a successful one is honoured: until its deadline the lease is there, no `Revoke` of
it is in progress, and no `Revoke` is about to delete a key bound to it
(`keepAlive_honoured`). The invariant is `Kept`.
-/

namespace EtcdLite

open Server

/-! ### Deadlines -/

/-- The deadline of a lease renewed now is within the range of the clock. -/
def Fits (now ttl : Int) : Prop :=
  -2 ^ 63 ≤ ttl * 1000000000 ∧ ttl * 1000000000 < 2 ^ 63 ∧
    -2 ^ 63 ≤ now + ttl * 1000000000 ∧ now + ttl * 1000000000 < 2 ^ 63

theorem wrap64_eq {n : Int} (h : -2 ^ 63 ≤ n) (h' : n < 2 ^ 63) : wrap64 n = n := by
  refine Int.bmod_eq_of_le ?_ ?_ <;> omega

theorem deadline_eq {now ttl : Int} (h : Fits now ttl) : deadline now ttl = now + ttl * 1000000000 := by
  obtain ⟨h₁, h₂, h₃, h₄⟩ := h
  rw [deadline, seconds, wrap64_eq h₁ h₂, wrap64_eq h₃ h₄]

namespace LeaseManager

theorem times_grant (lm : LeaseManager) (now ttl L : Int) : (lm.grant now ttl).2.2.times L =
    if L = lm.nextLeaseId then some (ttl, deadline now ttl) else lm.times L := by
  unfold grant times
  by_cases hL : L = lm.nextLeaseId <;> simp [hL]

theorem times_erase (lm : LeaseManager) (L L' : Int) :
    (lm.erase L).times L' = if L' = L then none else lm.times L' := by
  unfold erase times
  by_cases hL : L' = L <;> simp [hL]

/-- A keep-alive renews the lease, from its own time to live. -/
theorem times_keepAlive {lm lm' : LeaseManager} {now L ttl : Int}
    (h : lm.keepAlive now L = .ok (ttl, lm')) :
    (∃ e, lm.times L = some (ttl, e)) ∧
      ∀ L', lm'.times L' = if L' = L then some (ttl, deadline now ttl) else lm.times L' := by
  obtain ⟨info, hL, rfl, rfl⟩ := keepAlive_eq_ok h
  refine ⟨⟨info.expireTime, by rw [times, hL]; rfl⟩, fun L' => ?_⟩
  unfold times
  by_cases hL' : L' = L
  · subst hL'
    simp [hL]
  · simp [hL']

theorem live_iff_times {lm : LeaseManager} {L : Int} : lm.Live L ↔ (lm.times L).isSome := by
  simp [Live, keySet, times]

/-- A lease that is collected has expired. -/
theorem mem_expiredLeases {lm : LeaseManager} {now L : Int} (h : L ∈ lm.expiredLeases now) :
    ∃ ttl e, lm.times L = some (ttl, e) ∧ e ≤ now := by
  obtain ⟨info, hfind, hle⟩ := mem_expiredLeases_iff.mp h
  exact ⟨info.ttl, info.expireTime, by simp [times, hfind], hle⟩

end LeaseManager

/-! ### Revocations under way -/

/-- The thread revokes the lease, or will. -/
def Thread.Revokes (L : Int) : Thread → Prop
  | .collecting _ => False
  | .pending Ls => L ∈ Ls
  | .revoking L' _ Ls => L' = L ∨ L ∈ Ls

namespace System

/-- No client asks to revoke the lease. -/
def NoRevoke (L : Int) (_ : System) : Act → Prop
  | .revoke _ L' => L' ≠ L
  | .kv _ | .grant _ | .keepAlive _ | .checkExpiration _ | .resume _ | .tick _ => True

/-- A `KeepAlive` that renews the lease sets a deadline within the range of the clock. -/
def NoOverflow (L : Int) (y : System) : Act → Prop
  | .keepAlive L' => L' = L →
    ∀ ttl lm, y.server.leaseManager.keepAlive y.clock L = .ok (ttl, lm) → Fits y.clock ttl
  | .kv _ | .grant _ | .revoke _ _ | .checkExpiration _ | .resume _ | .tick _ => True

/-- A `KeepAlive` that renews the lease, for a time, does not find it among the leases that a
`CheckExpiration` has still to revoke. -/
def InTime (L : Int) (y : System) : Act → Prop
  | .keepAlive L' => L' = L →
    ∀ ttl lm, y.server.leaseManager.keepAlive y.clock L = .ok (ttl, lm) → 0 < ttl →
      ∀ t, ¬ (y.threads t).Revokes L
  | .kv _ | .grant _ | .revoke _ _ | .checkExpiration _ | .resume _ | .tick _ => True

/-- A step of a run that honours the keep-alives of the lease. -/
structure Honours (L : Int) (y : System) (a : Act) : Prop where
  noRevoke : y.NoRevoke L a
  noOverflow : y.NoOverflow L a
  inTime : y.InTime L a

/-! ### The clock -/

theorem resume_clock (y : System) (t : ℕ) : (y.resume t).clock = y.clock := by
  generalize hz : y.resume t = z
  cases resume_cases hz with
  | idle h => rfl
  | collected h => rfl
  | missing h => rfl
  | copied h hkeys => rfl
  | deleted h => rfl
  | erased h => rfl

theorem clock_le_step (y : System) (a : Act) : y.clock ≤ (y.step a).clock := by
  cases a with
  | kv op => exact Int.le_refl _
  | grant ttl => exact Int.le_refl _
  | keepAlive L => exact Int.le_refl _
  | tick d =>
    show y.clock ≤ y.clock + d
    omega
  | resume t => exact (y.resume_clock t).ge
  | revoke t L =>
    rw [step]
    split_ifs <;> exact Int.le_refl _
  | checkExpiration t =>
    rw [step]
    split_ifs <;> exact Int.le_refl _

/-- A thread that is to revoke the lease does so at the deadline `D` or later, and none has
read the clock in the future. -/
def Due (L D now : Int) : Thread → Prop
  | .collecting n => n ≤ now
  | .pending Ls => L ∈ Ls → D ≤ now
  | .revoking L' _ Ls => L' = L ∨ L ∈ Ls → D ≤ now

theorem Due.mono {L D now now' : Int} {thread : Thread} (h : Due L D now thread)
    (hle : now ≤ now') : Due L D now' thread := by
  cases thread with
  | collecting n => exact Int.le_trans h hle
  | pending Ls => exact fun hL => Int.le_trans (h hL) hle
  | revoking L' ks Ls => exact fun hL => Int.le_trans (h hL) hle

/-! ### After a keep-alive -/

/-- The lease was renewed for `T` seconds, and is kept until the deadline `D`. -/
structure Kept (L T D : Int) (y : System) : Prop where
  indexed : Indexed y.server
  /-- The lease was granted, so its id will not be given out again. -/
  granted : L < y.server.leaseManager.nextLeaseId
  /-- The time it was renewed at is past. -/
  renewed : D ≤ y.clock + T * 1000000000
  /-- While it is there, it does not expire before the deadline. -/
  times : ∀ ttl e, y.server.leaseManager.times L = some (ttl, e) → ttl = T ∧ D ≤ e
  /-- When it is gone, the deadline is past. -/
  gone : y.server.leaseManager.times L = none → D ≤ y.clock
  due : ∀ t, Due L D y.clock (y.threads t)

/-- A step that does nothing to the lease, and leaves no thread to revoke it early. -/
theorem Kept.of_times {L T D : Int} {y : System} (h : Kept L T D y) {a : Act}
    (htimes : (y.step a).server.leaseManager.times L = y.server.leaseManager.times L)
    (hnext : y.server.leaseManager.nextLeaseId ≤ (y.step a).server.leaseManager.nextLeaseId)
    (hdue : ∀ t, Due L D (y.step a).clock ((y.step a).threads t)) : Kept L T D (y.step a) where
  indexed := indexed_step h.indexed a
  granted := by
    have hg := h.granted
    omega
  renewed := by
    have hr := h.renewed
    have hc := y.clock_le_step a
    omega
  times := by
    rw [htimes]
    exact h.times
  gone := by
    rw [htimes]
    exact fun hnone => Int.le_trans (h.gone hnone) (y.clock_le_step a)
  due := hdue

theorem Kept.kv {L T D : Int} {y : System} (h : Kept L T D y) (op : KvOp) :
    Kept L T D (y.step (.kv op)) := by
  have hframe := (exec_wiring y.server op).leases
  exact h.of_times (congrFun hframe.times L) hframe.nextLeaseId.ge h.due

theorem Kept.grant {L T D : Int} {y : System} (h : Kept L T D y) (ttl : Int) :
    Kept L T D (y.step (.grant ttl)) := by
  have hg := h.granted
  refine h.of_times ?_ ?_ h.due
  · show (y.server.leaseManager.grant y.clock ttl).2.2.times L = _
    rw [LeaseManager.times_grant, if_neg (by omega)]
  · show y.server.leaseManager.nextLeaseId ≤ y.server.leaseManager.nextLeaseId + 1
    omega

/-- Renewing the lease: `D` is no later than the new deadline. -/
theorem kept_renewed {L T D : Int} {y : System} {lm : LeaseManager} (hindex : Indexed y.server)
    (hok : y.server.leaseManager.keepAlive y.clock L = .ok (T, lm)) (hfits : Fits y.clock T)
    (hD : D ≤ y.clock + T * 1000000000) (hdue : ∀ t, Due L D y.clock (y.threads t)) :
    Kept L T D (y.step (.keepAlive L)) := by
  have hserver : (y.step (.keepAlive L)).server = { y.server with leaseManager := lm } :=
    keepAlive_ok hok
  obtain ⟨⟨e, he⟩, htimes⟩ := LeaseManager.times_keepAlive hok
  have hnew : lm.times L = some (T, y.clock + T * 1000000000) := by
    rw [htimes, if_pos rfl, deadline_eq hfits]
  refine ⟨indexed_step hindex _, ?_, hD, ?_, ?_, hdue⟩
  · rw [hserver]
    obtain ⟨tag, hsound⟩ := hindex
    obtain ⟨hnext, -⟩ := LeaseManager.keepAlive_frame hok
    have hlive : y.server.leaseManager.Live L := by
      rw [LeaseManager.live_iff_times, he]
      rfl
    obtain ⟨-, hlt⟩ := hsound.ids L hlive
    exact hnext ▸ hlt
  · rw [hserver, hnew]
    intro ttl e' he'
    cases he'
    exact ⟨rfl, hD⟩
  · rw [hserver, hnew]
    intro hnone
    cases hnone

theorem Kept.keepAlive {L T D : Int} {y : System} (h : Kept L T D y) (L' : Int)
    (hfits : y.NoOverflow L (.keepAlive L')) : Kept L T D (y.step (.keepAlive L')) := by
  cases hk : y.server.leaseManager.keepAlive y.clock L' with
  | error rc =>
    have hstep : y.step (.keepAlive L') = y := by
      rw [step, keepAlive_error hk]
    rw [hstep]
    exact h
  | ok r =>
    obtain ⟨ttl, lm⟩ := r
    obtain ⟨⟨e, he⟩, htimes⟩ := LeaseManager.times_keepAlive hk
    by_cases hL : L' = L
    · subst hL
      obtain ⟨rfl, -⟩ := h.times ttl e he
      exact kept_renewed h.indexed hk (hfits rfl ttl lm hk) h.renewed h.due
    · have hserver : (y.step (.keepAlive L')).server = { y.server with leaseManager := lm } :=
        keepAlive_ok hk
      obtain ⟨hnext, -⟩ := LeaseManager.keepAlive_frame hk
      refine h.of_times ?_ ?_ h.due
      · rw [hserver, htimes, if_neg (Ne.symm hL)]
      · rw [hserver, hnext]

theorem Kept.resume {L T D : Int} {y : System} (h : Kept L T D y) (t : ℕ) :
    Kept L T D (y.step (.resume t)) := by
  have ht := h.due t
  have hclock : (y.step (.resume t)).clock = y.clock := y.resume_clock t
  -- The due of the other threads does not change; that of `t` is shown in each case.
  have hdue : Due L D y.clock ((y.resume t).threads t) →
      ∀ t', Due L D (y.step (.resume t)).clock ((y.step (.resume t)).threads t') := by
    intro hdue
    rw [hclock]
    refine threads_step h.due (fun _ _ hx => by cases hx) (fun _ hx => by cases hx) ?_
    intro t' ht'
    cases ht'
    exact hdue
  have hz : y.step (.resume t) = y.resume t := rfl
  generalize hres : y.resume t = z at hdue hz
  cases resume_cases hres with
  | idle hth => rwa [hz]
  | @collected now hth =>
    rw [hth] at ht
    refine h.of_times (by rw [hz]; rfl) (by rw [hz]; rfl) (hdue ?_)
    rw [setThread_self]
    intro hmem
    obtain ⟨ttl, e, hte, hle⟩ := LeaseManager.mem_expiredLeases hmem
    have hkept := (h.times ttl e hte).2
    have hnow : now ≤ y.clock := ht
    omega
  | @missing L' Ls hth =>
    rw [hth] at ht
    refine h.of_times (by rw [hz]; rfl) (by rw [hz]; rfl) (hdue ?_)
    rw [setThread_self]
    exact fun hmem => ht (List.mem_cons_of_mem _ hmem)
  | @copied L' Ls keys hth hkeys =>
    rw [hth] at ht
    refine h.of_times (by rw [hz]; rfl) (by rw [hz]; rfl) (hdue ?_)
    rw [setThread_self]
    rintro (rfl | hmem)
    · exact ht List.mem_cons_self
    · exact ht (List.mem_cons_of_mem _ hmem)
  | @deleted L' k ks Ls hth =>
    rw [hth] at ht
    have hframe := (exec_wiring y.server (.delete k [] false)).leases
    refine h.of_times ?_ ?_ (hdue ?_)
    · rw [hz]
      exact congrFun hframe.times L
    · rw [hz]
      exact hframe.nextLeaseId.ge
    · rw [setThread_self]
      exact ht
  | @erased L' Ls hth =>
    rw [hth] at ht
    have hdue' : ∀ t', Due L D (y.step (.resume t)).clock ((y.step (.resume t)).threads t') := by
      refine hdue ?_
      rw [setThread_self]
      exact fun hmem => ht (.inr hmem)
    have htimes : (y.step (.resume t)).server.leaseManager.times L =
        if L = L' then none else y.server.leaseManager.times L := by
      rw [hz]
      exact y.server.leaseManager.times_erase L' L
    by_cases hL : L = L'
    · -- The lease itself: the thread was due.
      rw [if_pos hL] at htimes
      refine ⟨indexed_step h.indexed _, ?_, ?_, ?_, ?_, hdue'⟩
      · rw [hz]
        exact h.granted
      · rw [hclock]
        exact h.renewed
      · intro ttl e he
        rw [htimes] at he
        cases he
      · rw [hclock]
        exact fun _ => ht (.inl hL.symm)
    · rw [if_neg hL] at htimes
      exact h.of_times htimes (by rw [hz]; rfl) hdue'

/-- **Every step keeps the lease until its deadline**, if no client revokes it. -/
theorem Kept.step {L T D : Int} {y : System} (h : Kept L T D y) {a : Act} (hrevoke : y.NoRevoke L a)
    (hfits : y.NoOverflow L a) : Kept L T D (y.step a) := by
  cases a with
  | kv op => exact h.kv op
  | grant ttl => exact h.grant ttl
  | keepAlive L' => exact h.keepAlive L' hfits
  | resume t => exact h.resume t
  | tick d =>
    refine h.of_times rfl (Int.le_refl _) fun t => (h.due t).mono ?_
    show y.clock ≤ y.clock + d
    omega
  | revoke t L' =>
    have hserver : (y.step (.revoke t L')).server = y.server := by rw [step_server]; rfl
    refine h.of_times (by rw [hserver]) (by rw [hserver]) ?_
    refine threads_step (fun t => (h.due t).mono (y.clock_le_step _)) ?_
      (fun _ hx => by cases hx) (fun _ hx => by cases hx)
    intro t' L'' hx hmem
    cases hx
    exact absurd (List.mem_singleton.mp hmem).symm hrevoke
  | checkExpiration t =>
    have hserver : (y.step (.checkExpiration t)).server = y.server := by rw [step_server]; rfl
    refine h.of_times (by rw [hserver]) (by rw [hserver]) ?_
    exact threads_step (fun t => (h.due t).mono (y.clock_le_step _)) (fun _ _ hx => by cases hx)
      (fun _ _ => y.clock_le_step _) (fun _ hx => by cases hx)

/-- A thread that has taken a step is not about to collect. -/
theorem resume_ne_collecting (y : System) (t : ℕ) (n : Int) :
    (y.resume t).threads t ≠ .collecting n := by
  intro hn
  generalize hz : y.resume t = z at hn
  cases resume_cases hz with
  | idle hth =>
    rw [hth] at hn
    cases hn
  | collected hth =>
    rw [setThread_self] at hn
    cases hn
  | missing hth =>
    rw [setThread_self] at hn
    cases hn
  | copied hth hkeys =>
    rw [setThread_self] at hn
    cases hn
  | deleted hth =>
    rw [setThread_self] at hn
    cases hn
  | erased hth =>
    rw [setThread_self] at hn
    cases hn

/-- No thread has read the clock in the future. -/
def ReadPast (y : System) : Prop := ∀ t n, y.threads t = .collecting n → n ≤ y.clock

theorem ReadPast.step {y : System} (h : y.ReadPast) (a : Act) : (y.step a).ReadPast := by
  refine threads_step (Q := fun thread => ∀ n, thread = .collecting n → n ≤ (y.step a).clock)
    ?_ ?_ ?_ ?_
  · exact fun t n ht => Int.le_trans (h t n ht) (y.clock_le_step a)
  · intro t L _ n hn
    cases hn
  · intro t _ n hn
    cases hn
    exact y.clock_le_step a
  · exact fun t _ n hn => absurd hn (y.resume_ne_collecting t n)

/-- A lease that a `KeepAlive` has just renewed, in time, is kept until its new deadline. -/
theorem kept_keepAlive {L T : Int} {y : System} {lm : LeaseManager} (hindex : Indexed y.server)
    (hread : y.ReadPast) (hok : y.server.leaseManager.keepAlive y.clock L = .ok (T, lm))
    (hfits : Fits y.clock T) (htime : ∀ t, ¬ (y.threads t).Revokes L) :
    Kept L T (y.clock + T * 1000000000) (y.step (.keepAlive L)) := by
  refine kept_renewed hindex hok hfits (Int.le_refl _) fun t => ?_
  have ht := htime t
  cases hth : y.threads t with
  | collecting n => exact hread t n hth
  | pending Ls =>
    rw [hth] at ht
    exact fun hmem => absurd hmem ht
  | revoking L' ks Ls =>
    rw [hth] at ht
    exact fun hmem => absurd hmem ht

theorem clock_le_run (y : System) (acts : List Act) : y.clock ≤ (y.run acts).clock := by
  refine Run.invariant step (I := fun z => y.clock ≤ z.clock) ?_ (Int.le_refl _) acts
  exact fun z a hz => Int.le_trans hz (z.clock_le_step a)

theorem readPast_run (env : Env) (clock : Int) (acts : List Act) :
    ((start env clock).run acts).ReadPast := by
  refine Run.invariant step (fun y a hy => hy.step a) ?_ acts
  intro t n ht
  cases ht

end System

/-- **A successful keep-alive is honoured**, in every run in which no client revokes the lease
and no `KeepAlive` finds it among those to be revoked: before the deadline the lease is
there, and nothing is about to revoke it. And if the puts that name it spare the keys
that other revocations have yet to delete, none of its keys is about to be deleted. -/
theorem keepAlive_honoured (env : Env) (clock : Int) (pre post : List Act) (L T : Int)
    (lm : LeaseManager)
    (hrun : Run.Along System.step (System.Honours L) (System.start env clock)
      (pre ++ .keepAlive L :: post)) :
    let y₀ := (System.start env clock).run pre
    let y := (System.start env clock).run (pre ++ .keepAlive L :: post)
    y₀.server.leaseManager.keepAlive y₀.clock L = .ok (T, lm) →
    y.clock < y₀.clock + T * 1000000000 →
      (y.server.leaseManager.leases.find? L).isSome ∧ (∀ t, ¬ (y.threads t).Revokes L) ∧
      (Run.Along System.step (System.SparesLease L) (System.start env clock)
        (pre ++ .keepAlive L :: post) →
      ∀ t L' k ks Ls, y.threads t = .revoking L' (k :: ks) Ls →
        ∀ info, y.server.kvStore.data.find? k = some info → info.kv.lease ≠ L) := by
  intro y₀ y hok hbefore
  have hy : y = (y₀.step (.keepAlive L)).run post := Run.final_append ..
  obtain ⟨-, hrenew, hpost⟩ := (Run.along_append System.step _ _ pre _).mp hrun
  have hclock : y₀.clock ≤ y.clock := by
    rw [hy]
    exact Int.le_trans (y₀.clock_le_step _) (System.clock_le_run _ post)
  have hkept : System.Kept L T (y₀.clock + T * 1000000000) y := by
    rw [hy]
    refine Run.invariant_along System.step (fun z a hz hC => hz.step hC.noRevoke hC.noOverflow)
      ?_ hpost
    exact System.kept_keepAlive (System.indexed_run env clock pre)
      (System.readPast_run env clock pre) hok (hrenew.noOverflow rfl T lm hok)
      (hrenew.inTime rfl T lm hok (by omega))
  have hrevokes : ∀ t, ¬ (y.threads t).Revokes L := by
    intro t hrevokes
    have hdue := hkept.due t
    cases hth : y.threads t with
    | collecting n =>
      rw [hth] at hrevokes
      exact hrevokes
    | pending Ls =>
      rw [hth] at hrevokes hdue
      have hle := hdue hrevokes
      omega
    | revoking L' ks Ls =>
      rw [hth] at hrevokes hdue
      have hle := hdue hrevokes
      omega
  refine ⟨?_, hrevokes, ?_⟩
  · rw [Option.isSome_iff_ne_none]
    intro hnone
    have hgone := hkept.gone (by rw [LeaseManager.times, hnone]; rfl)
    omega
  · intro hspares t L' k ks Ls hth info hinfo hlease
    have hown := System.ownKeys_run env clock hspares t
    rw [hth] at hown
    refine hrevokes t ?_
    rw [hth]
    exact .inl (hown k List.mem_cons_self info hinfo hlease)

/-- A keep-alive that lands after the lease was collected returns OK, and the lease is erased
at once. -/
theorem keepAlive_lost :
    let y₀ := (System.start .plain 0).run
      [.grant 5, .tick 6000000000, .checkExpiration 0, .resume 0]
    let y := y₀.run [.keepAlive 1, .resume 0, .resume 0]
    (∃ lm, y₀.server.leaseManager.keepAlive y₀.clock 1 = .ok (5, lm)) ∧
      y.clock < y₀.clock + 5 * 1000000000 ∧ y.server.leaseManager.leases.find? 1 = none := by
  refine ⟨⟨_, rfl⟩, by decide, rfl⟩

/-- A keep-alive before the expiry is honoured when the expiry is checked later. -/
theorem keepAlive_honoured_early :
    let y := (System.start .plain 0).run
      ([.grant 5, .tick 2000000000] ++ .keepAlive 1 ::
        [.tick 4000000000, .checkExpiration 0, .resume 0])
    (y.server.leaseManager.leases.find? 1).isSome ∧ (∀ t, ¬ (y.threads t).Revokes 1) ∧
      ∀ t L' k ks Ls, y.threads t = .revoking L' (k :: ks) Ls →
        ∀ info, y.server.kvStore.data.find? k = some info → info.kv.lease ≠ 1 := by
  have hkept := keepAlive_honoured .plain 0 [.grant 5, .tick 2000000000]
    [.tick 4000000000, .checkExpiration 0, .resume 0] 1 5 _
    (by
      refine ⟨⟨trivial, trivial, trivial⟩, ⟨trivial, trivial, trivial⟩, ⟨trivial, ?_, ?_⟩,
        ⟨trivial, trivial, trivial⟩, ⟨trivial, trivial, trivial⟩, ⟨trivial, trivial, trivial⟩,
        trivial⟩
      · intro _ ttl lm hok
        obtain rfl : 5 = ttl := congrArg Prod.fst (Except.ok.inj hok)
        exact ⟨by decide, by decide, by decide, by decide⟩
      · intro _ ttl lm _ _ t ht
        cases ht)
    rfl (by decide)
  refine ⟨hkept.1, hkept.2.1, hkept.2.2 ⟨?_, ?_, ?_, ?_, ?_, ?_, trivial⟩⟩ <;>
    intro k p hp <;> cases hp

end EtcdLite
