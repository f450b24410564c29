import EtcdLite.Lease.Expiry
import EtcdLite.Lease.RevokeEffect

/-!
# Leases and the clock

What the readings of the clock make of a lease. `Grant` and `KeepAlive` compute the deadline in
the 64 bits of the steady clock's nanoseconds. When the sum fits, no check selects the lease before
its time is up; when it does not, the last reading of the clock comes too early, and a lease that was to
last for centuries may have expired at once (`never_early_iff`).

`TimeToLive` and `GetLeaseTTL` cut the time that is left to whole seconds and answer `-1` for
none, so in its last second a lease is reported as expired that no check would select
(`reported_iff`).
-/

namespace EtcdLite

open Server

/-! ### Renewals -/

/-- The call grants the lease, or keeps it alive, at the reading `t` of the clock. -/
inductive Renews (s : Server) (t : Int) : Call → Int → Int → Prop where
  | grant (ttl : Int) : Renews s t (.grant t ttl) s.leaseManager.nextLeaseId ttl
  | keepAlive {L : Int} {info : LeaseInfo} (h : s.leaseManager.leases.find? L = some info) :
    Renews s t (.keepAlive t L) L info.ttl

/-- The operation is a keep-alive of the lease. -/
def Operation.KeepsAlive (L : Int) : Operation → Prop
  | .call (.keepAlive _ L') => L' = L
  | _ => False

/-- The lease's id is given out, and the lease, as long as it is there, has these times. -/
structure Timed (L : Int) (p : Int × Int) (s : Server) : Prop where
  indexed : Indexed s
  given : L < s.leaseManager.nextLeaseId
  times : ∀ q, s.leaseManager.times L = some q → q = p

/-- Deleting keys leaves the times of every lease alone. -/
theorem Timed.of_same {L : Int} {p : Int × Int} {s t : Server} (h : Timed L p s)
    (ht : Indexed t) (hsame : s.leaseManager.SameButKeys t.leaseManager) : Timed L p t where
  indexed := ht
  given := by
    rw [hsame.nextLeaseId]
    exact h.given
  times q hq := by
    rw [hsame.times] at hq
    exact h.times q hq

theorem Timed.revoke {L : Int} {p : Int × Int} {s : Server} (h : Timed L p s) (L' : Int) :
    Timed L p (s.revoke L').2 := by
  cases hL' : s.leaseManager.leases.find? L' with
  | none =>
    rw [revoke_unknown hL']
    exact h
  | some lease =>
    rw [revoke_known h.indexed.choose_spec.callback hL']
    have hdeleted := h.of_same (h.indexed.deleteKeys lease.keys.keys)
      (wiring_deleteKeys s lease.keys.keys).leases
    refine ⟨hdeleted.indexed.exec (.erase L'), hdeleted.given, fun q hq => ?_⟩
    rw [Atom.exec, LeaseManager.times_erase] at hq
    split_ifs at hq
    exact hdeleted.times q hq

/-- A lease keeps its times until it is kept alive again. -/
theorem Timed.operation {L : Int} {p : Int × Int} {s : Server} (h : Timed L p s) {op : Operation}
    (hop : ¬ op.KeepsAlive L) : Timed L p (op.exec s) := by
  have hindexed : Indexed (op.exec s) := h.indexed.operation op
  cases op with
  | call c =>
    cases c with
    | kv op => exact h.of_same hindexed (exec_wiring s op).leases
    | grant now ttl =>
      refine ⟨hindexed, Int.lt_add_one_of_le h.given.le, fun q hq => ?_⟩
      have hne : L ≠ s.leaseManager.nextLeaseId := h.given.ne
      change (s.leaseManager.grant now ttl).2.2.times L = some q at hq
      rw [LeaseManager.times_grant, if_neg hne] at hq
      exact h.times q hq
    | keepAlive now L' =>
      cases hk : s.leaseManager.keepAlive now L' with
      | error rc =>
        show Timed L p (s.keepAlive now L')
        rw [keepAlive_error hk]
        exact h
      | ok r =>
        obtain ⟨ttl, lm⟩ := r
        have hstep : (Operation.call (.keepAlive now L')).exec s = { s with leaseManager := lm } :=
          keepAlive_ok hk
        rw [hstep] at hindexed ⊢
        refine ⟨hindexed, ?_, fun q hq => ?_⟩
        · exact (LeaseManager.keepAlive_frame hk).1 ▸ h.given
        · have hne : L ≠ L' := fun heq => hop heq.symm
          change lm.times L = some q at hq
          rw [(LeaseManager.times_keepAlive hk).2, if_neg hne] at hq
          exact h.times q hq
    | revoke L' => exact h.revoke L'
    | checkExpiration now =>
      exact Run.invariant (fun s L' => (s.revoke L').2) (fun _ L' hs => hs.revoke L') h
        (s.leaseManager.expiredLeases now)
  | registerWatcher req stream => exact ⟨hindexed, h.given, h.times⟩
  | cancelWatcher watchId => exact ⟨hindexed, h.given, h.times⟩

/-- A lease that has just been renewed has the deadline computed for it. -/
theorem Renews.timed {s : Server} {t L ttl : Int} {c : Call} (hc : Renews s t c L ttl)
    (h : Indexed s) : Timed L (ttl, deadline t ttl) (c.exec s) := by
  have hindexed := h.call c
  cases hc with
  | grant =>
    refine ⟨hindexed, Int.lt_succ _, fun q hq => ?_⟩
    change (s.leaseManager.grant t ttl).2.2.times s.leaseManager.nextLeaseId = some q at hq
    rw [LeaseManager.times_grant, if_pos rfl] at hq
    exact (Option.some.inj hq).symm
  | @keepAlive L info hL =>
    obtain ⟨lm, hk⟩ : ∃ lm, s.leaseManager.keepAlive t L = .ok (info.ttl, lm) := by
      rw [LeaseManager.keepAlive, hL]
      exact ⟨_, rfl⟩
    have hstep : (Call.keepAlive t L).exec s = { s with leaseManager := lm } := keepAlive_ok hk
    obtain ⟨tag, hsound⟩ := h
    rw [hstep] at hindexed ⊢
    refine ⟨hindexed, ?_, fun q hq => ?_⟩
    · show L < lm.nextLeaseId
      rw [(LeaseManager.keepAlive_frame hk).1]
      exact (hsound.ids L (LeaseManager.live_iff.mpr ⟨info, hL⟩)).2
    · change lm.times L = some q at hq
      rw [(LeaseManager.times_keepAlive hk).2, if_pos rfl] at hq
      exact (Option.some.inj hq).symm

/-- No deadline is past the last reading of the clock. -/
theorem wrap64_lt (n : Int) : wrap64 n < 2 ^ 63 := by
  have hlt : Int.bmod n (2 ^ 64) < ((2 ^ 64 : ℕ) + 1 : ℤ) / 2 := Int.bmod_lt (by decide)
  rw [wrap64]
  omega

/-- A deadline that is not past the last reading of the clock is computed as it is. -/
theorem fits_iff {t ttl : Int} (ht : 0 ≤ t) (httl : 1 ≤ ttl) :
    Fits t ttl ↔ t + ttl * 1000000000 < 2 ^ 63 := by
  unfold Fits
  constructor
  · exact fun h => h.2.2.2
  · intro h
    refine ⟨?_, ?_, ?_, ?_⟩ <;> omega

/-- No check between the readings `t` and `t` plus the time to live selects the lease. -/
def Spared (lm : LeaseManager) (L t ttl : Int) : Prop :=
  ∀ now, t ≤ now → now < t + ttl * 1000000000 → now < 2 ^ 63 → L ∉ lm.expiredLeases now

/-- A lease whose deadline does not fit is selected before its time is up. -/
theorem not_spared {s : Server} {L t ttl : Int} (h : Timed L (ttl, deadline t ttl) s)
    (hlive : (s.leaseManager.leases.find? L).isSome) (ht : t < 2 ^ 63)
    (hover : 2 ^ 63 ≤ t + ttl * 1000000000) : ¬ Spared s.leaseManager L t ttl := by
  intro hspared
  obtain ⟨lease, hL⟩ := Option.isSome_iff_exists.mp hlive
  have htimes : (lease.ttl, lease.expireTime) = (ttl, deadline t ttl) :=
    h.times _ (by rw [LeaseManager.times, hL]; rfl)
  have hexpire : lease.expireTime = deadline t ttl := congrArg Prod.snd htimes
  have hlt : deadline t ttl < 2 ^ 63 := wrap64_lt _
  -- The last reading that the clock can represent.
  refine hspared (2 ^ 63 - 1) (by omega) (by omega) (by omega) ?_
  exact LeaseManager.mem_expiredLeases_iff.mpr ⟨lease, hL, by omega⟩

/-- **No lease expires early, exactly when its deadline fits.** A lease is granted or kept alive at
a reading `t` of the clock; whatever is done after, short of keeping it alive again, no check before
`t` plus its time to live selects it, and no product or sum leaves the 64 bits, exactly
when `t` plus the time to live, in nanoseconds, is below `2 ^ 63`. Where it is not, a lease that
is there is selected early. -/
theorem never_early_iff (env : Env) (pre post : List Operation) (c : Call) (t L ttl : Int)
    (ht : 0 ≤ t ∧ t < 2 ^ 63) (httl : 1 ≤ ttl ∧ ttl < 2 ^ 63)
    (hc : Renews (Run.final Operation.exec (Server.new env) pre) t c L ttl)
    (hpost : ∀ op ∈ post, ¬ op.KeepsAlive L) :
    let lm := (Run.final Operation.exec (Server.new env) (pre ++ .call c :: post)).leaseManager
    (Spared lm L t ttl ∧ Fits t ttl ↔ t + ttl * 1000000000 < 2 ^ 63) ∧
      ((lm.leases.find? L).isSome → Spared lm L t ttl → t + ttl * 1000000000 < 2 ^ 63) := by
  intro lm
  have htimed : Timed L (ttl, deadline t ttl)
      (Run.final Operation.exec (Server.new env) (pre ++ .call c :: post)) := by
    rw [Run.final_append]
    refine Run.invariant_along Operation.exec (C := fun _ op => ¬ op.KeepsAlive L)
      (fun s op hs hop => hs.operation hop) (hc.timed (indexed_final env pre)) ?_
    exact Run.along_of_split Operation.exec fun before op after heq =>
      hpost op (by rw [heq]; exact List.mem_append_right before List.mem_cons_self)
  refine ⟨⟨fun h => (fits_iff ht.1 httl.1).mp h.2, fun hfits => ⟨?_, ?_⟩⟩, fun hlive hspared => ?_⟩
  · intro now _ hbefore _ hmem
    obtain ⟨ttl', e, htimes, hle⟩ := LeaseManager.mem_expiredLeases hmem
    have heq := congrArg Prod.snd (htimed.times _ htimes)
    rw [deadline_eq ((fits_iff ht.1 httl.1).mpr hfits)] at heq
    dsimp only at heq
    omega
  · exact (fits_iff ht.1 httl.1).mpr hfits
  · by_contra hover
    exact not_spared htimed hlive ht.2 (by omega) hspared

/-- A lease granted for 60 seconds at the start of the clock, and a key put under it. -/
theorem never_early_minute :
    let lm := (Run.final Operation.exec (Server.new .plain)
      ([] ++ .call (.grant 0 60) :: [.call (.kv (.put [107] [118] 1 none))])).leaseManager
    (Spared lm 1 0 60 ∧ Fits 0 60 ↔ (0 : Int) + 60 * 1000000000 < 2 ^ 63) ∧
      ((lm.leases.find? 1).isSome → Spared lm 1 0 60 → (0 : Int) + 60 * 1000000000 < 2 ^ 63) :=
  never_early_iff .plain [] [.call (.kv (.put [107] [118] 1 none))] (.grant 0 60) 0 1 60
    (by decide) (by decide) (.grant 60) (by simp [Operation.KeepsAlive])

/-- A lease granted for ten thousand million seconds, some 317 years, has expired at once. -/
theorem century_expires :
    let lm := (Run.final Operation.exec (Server.new .plain)
      [.call (.grant 0 10000000000)]).leaseManager
    ¬ (Spared lm 1 0 10000000000 ∧ Fits 0 10000000000) := by
  rintro lm ⟨hspared, -⟩
  exact hspared 0 (by decide) (by decide) (by decide) (by decide)

/-! ### The time that is left -/

/-- What `TimeToLive` and `GetLeaseTTL` report and what a check would do agree: the two answers
are one, it is `-1` for a lease that a check would select, and otherwise it is the time that is
left, in whole seconds. -/
def Agrees (lm : LeaseManager) (now L : Int) (info : LeaseInfo) (keys : Option (List Bytes)) :
    Prop :=
  ∃ ttl out, lm.timeToLive now L keys = .ok (ttl, out) ∧ lm.getLeaseTTL now L = ttl ∧
    (ttl = -1 ↔ L ∈ lm.expiredLeases now) ∧
    (ttl ≠ -1 → 0 ≤ ttl ∧ ttl * 1000000000 ≤ info.expireTime - now ∧
      info.expireTime - now < (ttl + 1) * 1000000000)

/-- The whole seconds in a time that is left. -/
theorem tdiv_second {d : Int} (hd : 0 ≤ d) : Int.tdiv d 1000000000 * 1000000000 ≤ d ∧
    d < (Int.tdiv d 1000000000 + 1) * 1000000000 := by
  rw [Int.tdiv_eq_ediv_of_nonneg hd]
  omega

/-- Of a time that is over, no second is left. -/
theorem tdiv_second_nonpos {d : Int} (hd : d ≤ 0) : Int.tdiv d 1000000000 ≤ 0 := by
  have hneg : Int.tdiv (-d) 1000000000 = -Int.tdiv d 1000000000 := Int.neg_tdiv ..
  have hnonneg : 0 ≤ Int.tdiv (-d) 1000000000 := Int.tdiv_nonneg (by omega) (by decide)
  omega

/-- **Reported and enforced expiry agree, except in the last second.** For a lease that is there
and a reading of the clock that does not overflow: the two reports and the check agree exactly when the
lease has expired or has a whole second left. -/
theorem reported_iff (lm : LeaseManager) (now L : Int) (info : LeaseInfo)
    (keys : Option (List Bytes)) (hL : lm.leases.find? L = some info)
    (hd : -2 ^ 63 ≤ info.expireTime - now ∧ info.expireTime - now < 2 ^ 63) :
    Agrees lm now L info keys ↔
      info.expireTime ≤ now ∨ now + 1000000000 ≤ info.expireTime := by
  have hremaining : LeaseManager.remaining info now =
      Int.tdiv (info.expireTime - now) 1000000000 := by
    rw [LeaseManager.remaining, wrap64_eq hd.1 hd.2]
  have hselected : L ∈ lm.expiredLeases now ↔ info.expireTime ≤ now := by
    rw [LeaseManager.mem_expiredLeases_iff, hL]
    simp
  have hreport : lm.getLeaseTTL now L =
      if Int.tdiv (info.expireTime - now) 1000000000 > 0 then
        Int.tdiv (info.expireTime - now) 1000000000 else -1 := by
    rw [LeaseManager.getLeaseTTL, hL, ← hremaining]
  have hsame : lm.timeToLive now L keys =
      .ok (lm.getLeaseTTL now L, keys.map fun keys => keys ++ info.keys.keys) := by
    rw [LeaseManager.timeToLive, LeaseManager.getLeaseTTL, hL]
  have hagrees : Agrees lm now L info keys ↔
      (lm.getLeaseTTL now L = -1 ↔ info.expireTime ≤ now) ∧
      (lm.getLeaseTTL now L ≠ -1 → 0 ≤ lm.getLeaseTTL now L ∧
        lm.getLeaseTTL now L * 1000000000 ≤ info.expireTime - now ∧
        info.expireTime - now < (lm.getLeaseTTL now L + 1) * 1000000000) := by
    rw [Agrees, hsame, hselected]
    constructor
    · rintro ⟨ttl, out, hok, rfl, hrest⟩
      exact hrest
    · exact fun hrest => ⟨_, _, rfl, rfl, hrest⟩
  rw [hagrees, hreport]
  by_cases hover : info.expireTime ≤ now
  · -- It has expired: nothing is left, and the report is `-1`.
    have hnone := tdiv_second_nonpos (d := info.expireTime - now) (by omega)
    rw [if_neg (by omega)]
    exact iff_of_true ⟨iff_of_true rfl hover, fun hne => absurd rfl hne⟩ (.inl hover)
  · have hwhole := tdiv_second (d := info.expireTime - now) (by omega)
    by_cases hsecond : now + 1000000000 ≤ info.expireTime
    · rw [if_pos (by omega)]
      refine iff_of_true ⟨iff_of_false (by omega) hover, fun _ => ?_⟩ (.inr hsecond)
      exact ⟨by omega, hwhole.1, hwhole.2⟩
    · -- In the last second the report is `-1`, and no check selects the lease.
      rw [if_neg (by omega)]
      exact iff_of_false (fun h => hover (h.1.mp rfl)) (by omega)

/-- A lease of one second, at the start of its time. -/
theorem reported_iff_second :
    let lm := ((Server.new .plain).grant 0 1).leaseManager
    ∃ info, lm.leases.find? 1 = some info ∧
      (Agrees lm 0 1 info none ↔ info.expireTime ≤ 0 ∨ 0 + 1000000000 ≤ info.expireTime) :=
  ⟨_, rfl, reported_iff _ 0 1 _ none rfl (by decide)⟩

/-- The same lease half a second later: it is reported as expired, and no check would select it. -/
theorem last_second_misreported :
    let lm := ((Server.new .plain).grant 0 1).leaseManager
    ∃ info, lm.leases.find? 1 = some info ∧ ¬ Agrees lm 500000000 1 info none := by
  refine ⟨_, rfl, ?_⟩
  rintro ⟨ttl, out, -, hreport, hselected, -⟩
  have hgone : ttl = -1 := hreport.symm
  exact absurd (hselected.mp hgone) (by decide)

end EtcdLite
