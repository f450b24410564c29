import EtcdLite.Lib.UnorderedMap
import EtcdLite.Model.Proto
import Mathlib.Algebra.Group.Int.Defs
import Mathlib.Algebra.Group.Nat.Defs
import Mathlib.Data.Set.Insert

/-!
# The lease manager

The data of `LeaseManager` and its functions that touch nothing else
(`lease_manager.cpp`). `Revoke` and `CheckExpiration` call back into the store,
and are in `EtcdLite.Model.Server`.

Time is the steady clock's: nanoseconds in 64 bits, and the arithmetic of
`std::chrono` on them wraps. A function that reads the clock takes the reading as
`now`. `nextLeaseId_` is an integer that does not wrap.
-/

namespace EtcdLite

/-- A signed 64-bit result. -/
def wrap64 (n : Int) : Int := Int.bmod n (2 ^ 64)

/-- `std::chrono::seconds(ttl)`, converted to the nanoseconds of the steady clock. -/
def seconds (ttl : Int) : Int := wrap64 (ttl * 1000000000)

/-- `now + std::chrono::seconds(ttl)`. -/
def deadline (now ttl : Int) : Int := wrap64 (now + seconds ttl)

/-- `LeaseManager::LeaseInfo`. -/
structure LeaseInfo where
  leaseId : Int
  ttl : Int
  expireTime : Int
  keys : UnorderedSet Bytes

/-- `LeaseManager`. -/
structure LeaseManager where
  /-- `leases_`. -/
  leases : UnorderedMap Int LeaseInfo
  /-- `nextLeaseId_`. -/
  nextLeaseId : Int
  /-- `deleteKeyCallback_` is set. -/
  deleteKeyCallback : Bool
  /-- The layout the key set of each lease will have. -/
  keysLayout : Int → Layout Bytes Unit

namespace LeaseManager

/-- A new lease manager, with the layouts its tables will have. -/
def new (l : Layout Int LeaseInfo) (keysLayout : Int → Layout Bytes Unit) : LeaseManager :=
  { leases := .empty l, nextLeaseId := 1, deleteKeyCallback := false, keysLayout := keysLayout }

/-- `SetDeleteKeyCallback`. -/
def setDeleteKeyCallback (lm : LeaseManager) : LeaseManager := { lm with deleteKeyCallback := true }

/-- The status for a lease id that `leases_` does not have. -/
def leaseNotFound : Status := ⟨.notFound, "Lease not found"⟩

/-- `Grant`: the outputs `leaseId` and `actualTtl`, and the new state. -/
def grant (lm : LeaseManager) (now ttl : Int) : Int × Int × LeaseManager :=
  let leaseId := lm.nextLeaseId
  let info : LeaseInfo :=
    { leaseId := leaseId, ttl := ttl, expireTime := deadline now ttl,
      keys := .empty (lm.keysLayout leaseId) }
  (leaseId, ttl, { lm with leases := lm.leases.insert leaseId info, nextLeaseId := lm.nextLeaseId + 1 })

/-- `KeepAlive`: the output `ttl` and the new state. -/
def keepAlive (lm : LeaseManager) (now leaseId : Int) : Except Status (Int × LeaseManager) :=
  match lm.leases.find? leaseId with
  | none => .error leaseNotFound
  | some info =>
    .ok (info.ttl,
      { lm with
        leases := lm.leases.modify leaseId fun i => { i with expireTime := deadline now i.ttl } })

/-- `duration_cast<seconds>(expireTime - now).count()`: whole seconds, the rest cut off. -/
def remaining (info : LeaseInfo) (now : Int) : Int :=
  Int.tdiv (wrap64 (info.expireTime - now)) 1000000000

/-- `TimeToLive`: the outputs `ttl` and `keys`, the second a pointer, null or to a vector that
the keys of the lease are added to. -/
def timeToLive (lm : LeaseManager) (now leaseId : Int) (keys : Option (List Bytes)) :
    Except Status (Int × Option (List Bytes)) :=
  match lm.leases.find? leaseId with
  | none => .error leaseNotFound
  | some info =>
    let ttl := if remaining info now > 0 then remaining info now else -1
    .ok (ttl, keys.map fun keys => keys ++ info.keys.keys)

/-- `AttachKey`. -/
def attachKey (lm : LeaseManager) (leaseId : Int) (key : Bytes) : Status × LeaseManager :=
  match lm.leases.find? leaseId with
  | none => (leaseNotFound, lm)
  | some _ =>
    (.OK, { lm with leases := lm.leases.modify leaseId fun i => { i with keys := i.keys.insert key } })

/-- `DetachKey`. -/
def detachKey (lm : LeaseManager) (leaseId : Int) (key : Bytes) : Status × LeaseManager :=
  match lm.leases.find? leaseId with
  | none => (leaseNotFound, lm)
  | some _ =>
    (.OK, { lm with leases := lm.leases.modify leaseId fun i => { i with keys := i.keys.erase key } })

/-- `GetLeaseKeys`. -/
def getLeaseKeys (lm : LeaseManager) (leaseId : Int) : Except Status (List Bytes) :=
  match lm.leases.find? leaseId with
  | none => .error leaseNotFound
  | some info => .ok info.keys.keys

/-- `LeaseExists`. -/
def leaseExists (lm : LeaseManager) (leaseId : Int) : Bool := lm.leases.contains leaseId

/-- `GetLeaseTTL`. -/
def getLeaseTTL (lm : LeaseManager) (now leaseId : Int) : Int :=
  match lm.leases.find? leaseId with
  | none => -1
  | some info => if remaining info now > 0 then remaining info now else -1

/-- `leases_.erase(leaseId)`, the last step of `Revoke`. -/
def erase (lm : LeaseManager) (leaseId : Int) : LeaseManager :=
  { lm with leases := lm.leases.erase leaseId }

/-- The loop of `CheckExpiration` that collects the expired leases. -/
def expiredLeases (lm : LeaseManager) (now : Int) : List Int :=
  (lm.leases.toList.filter fun e => now ≥ e.2.expireTime).map Prod.fst

/-! ### Which leases there are, and the key set of each -/

/-- The key set of a lease, when there is such a lease. -/
def keySet (lm : LeaseManager) (L : Int) : Option (Set Bytes) :=
  (lm.leases.find? L).map fun info => {k | k ∈ info.keys}

/-- The lease is in `leases_`. -/
def Live (lm : LeaseManager) (L : Int) : Prop := (lm.keySet L).isSome

theorem live_iff {lm : LeaseManager} {L : Int} : lm.Live L ↔ ∃ info, lm.leases.find? L = some info := by
  simp [Live, keySet, Option.isSome_iff_exists]

theorem leaseExists_iff {lm : LeaseManager} {L : Int} : lm.leaseExists L = true ↔ lm.Live L := by
  simp [leaseExists, UnorderedMap.contains, Live, keySet]

theorem keySet_of_find? {lm : LeaseManager} {L : Int} {info : LeaseInfo}
    (h : lm.leases.find? L = some info) : lm.keySet L = some {k | k ∈ info.keys} := by
  rw [keySet, h]
  rfl

/-- Updating the key set of one lease in place, when there is such a lease. -/
def modifyKeys (lm : LeaseManager) (L : Int) (f : UnorderedSet Bytes → UnorderedSet Bytes) :
    LeaseManager :=
  { lm with leases := lm.leases.modify L fun info => { info with keys := f info.keys } }

theorem keySet_modifyKeys (lm : LeaseManager) (L L' : Int)
    {f : UnorderedSet Bytes → UnorderedSet Bytes} {F : Set Bytes → Set Bytes}
    (hF : ∀ s : UnorderedSet Bytes, {k | k ∈ f s} = F {k | k ∈ s}) :
    (lm.modifyKeys L f).keySet L' = (lm.keySet L').map fun S => if L' = L then F S else S := by
  unfold modifyKeys keySet
  by_cases hL : L' = L
  · subst hL
    simp only [UnorderedMap.find?_modify, if_true, Option.map_map]
    congr 1
    funext info
    exact hF info.keys
  · simp only [UnorderedMap.find?_modify, if_neg hL, Option.map_map]
    rfl

theorem attachKey_snd (lm : LeaseManager) (L : Int) (k : Bytes) :
    (lm.attachKey L k).2 = lm.modifyKeys L fun s => s.insert k := by
  unfold attachKey modifyKeys UnorderedMap.modify
  cases lm.leases.find? L <;> rfl

theorem detachKey_snd (lm : LeaseManager) (L : Int) (k : Bytes) :
    (lm.detachKey L k).2 = lm.modifyKeys L fun s => s.erase k := by
  unfold detachKey modifyKeys UnorderedMap.modify
  cases lm.leases.find? L <;> rfl

/-- Attaching changes one key set, when there is one to change. -/
theorem keySet_attachKey (lm : LeaseManager) (L L' : Int) (k : Bytes) :
    (lm.attachKey L k).2.keySet L' =
      (lm.keySet L').map fun S => if L' = L then insert k S else S := by
  rw [attachKey_snd]
  refine keySet_modifyKeys lm L L' fun s => ?_
  ext k'
  simp

/-- Detaching changes one key set, when there is one to change. -/
theorem keySet_detachKey (lm : LeaseManager) (L L' : Int) (k : Bytes) :
    (lm.detachKey L k).2.keySet L' =
      (lm.keySet L').map fun S => if L' = L then S \ {k} else S := by
  rw [detachKey_snd]
  refine keySet_modifyKeys lm L L' fun s => ?_
  ext k'
  simp [and_comm]

/-- Granting adds a lease with no keys, at a new id. -/
theorem keySet_grant (lm : LeaseManager) (now ttl L : Int) :
    (lm.grant now ttl).2.2.keySet L = if L = lm.nextLeaseId then some ∅ else lm.keySet L := by
  unfold grant keySet
  by_cases hL : L = lm.nextLeaseId
  · simp [hL]
  · simp [hL]

/-- A keep-alive that succeeds finds the lease, answers its own time to live and sets its expiry
only. -/
theorem keepAlive_eq_ok {lm lm' : LeaseManager} {now L ttl : Int}
    (h : lm.keepAlive now L = .ok (ttl, lm')) :
    ∃ info, lm.leases.find? L = some info ∧ ttl = info.ttl ∧
      lm' = { lm with
        leases := lm.leases.modify L fun i => { i with expireTime := deadline now i.ttl } } := by
  unfold keepAlive at h
  cases hL : lm.leases.find? L with
  | none => simp [hL] at h
  | some info =>
    simp only [hL, Except.ok.injEq, Prod.mk.injEq] at h
    exact ⟨info, rfl, h.1.symm, h.2.symm⟩

/-- A keep-alive changes no key set. -/
theorem keySet_keepAlive {lm lm' : LeaseManager} {now L ttl : Int}
    (h : lm.keepAlive now L = .ok (ttl, lm')) (L' : Int) : lm'.keySet L' = lm.keySet L' := by
  obtain ⟨info, hL, -, rfl⟩ := keepAlive_eq_ok h
  unfold keySet
  by_cases hL' : L' = L
  · subst hL'; simp [hL]
  · simp [hL']

/-- What else a keep-alive leaves alone. -/
theorem keepAlive_frame {lm lm' : LeaseManager} {now L ttl : Int}
    (h : lm.keepAlive now L = .ok (ttl, lm')) :
    lm'.nextLeaseId = lm.nextLeaseId ∧ lm'.deleteKeyCallback = lm.deleteKeyCallback := by
  obtain ⟨info, -, -, rfl⟩ := keepAlive_eq_ok h
  exact ⟨rfl, rfl⟩

theorem keySet_erase (lm : LeaseManager) (L L' : Int) :
    (lm.erase L).keySet L' = if L' = L then none else lm.keySet L' := by
  unfold erase keySet
  by_cases hL : L' = L <;> simp [hL]

theorem getLeaseKeys_known {lm : LeaseManager} {L : Int} {info : LeaseInfo}
    (h : lm.leases.find? L = some info) : lm.getLeaseKeys L = .ok info.keys.keys := by
  rw [getLeaseKeys, h]

/-- The keys `GetLeaseKeys` copies out are those of the key set. -/
theorem mem_getLeaseKeys {lm : LeaseManager} {L : Int} {ks : List Bytes}
    (h : lm.getLeaseKeys L = .ok ks) : ∃ S, lm.keySet L = some S ∧ ∀ k, k ∈ ks ↔ k ∈ S := by
  unfold getLeaseKeys at h
  cases hL : lm.leases.find? L with
  | none => simp [hL] at h
  | some info =>
    simp only [hL, Except.ok.injEq] at h
    subst h
    exact ⟨_, by simp [keySet, hL]; rfl, fun k => UnorderedSet.mem_keys⟩

/-- The time to live of a lease and when it expires. -/
def times (lm : LeaseManager) (L : Int) : Option (Int × Int) :=
  (lm.leases.find? L).map fun info => (info.ttl, info.expireTime)

/-- The leases a check collects are those whose time has come. -/
theorem mem_expiredLeases_iff {lm : LeaseManager} {now L : Int} :
    L ∈ lm.expiredLeases now ↔ ∃ lease, lm.leases.find? L = some lease ∧ lease.expireTime ≤ now := by
  simp only [expiredLeases, List.mem_map, List.mem_filter, Prod.exists, UnorderedMap.mem_toList,
    decide_eq_true_eq, ge_iff_le]
  constructor
  · rintro ⟨_, lease, hfind, rfl⟩
    exact ⟨lease, hfind⟩
  · rintro ⟨lease, hfind⟩
    exact ⟨L, lease, hfind, rfl⟩

theorem nodup_expiredLeases (lm : LeaseManager) (now : Int) : (lm.expiredLeases now).Nodup := by
  have hsub : (lm.leases.toList.filter fun e => now ≥ e.2.expireTime).Sublist lm.leases.toList :=
    List.filter_sublist
  exact (hsub.map Prod.fst).nodup lm.leases.nodup_keys

/-- Two lease managers that differ in the key sets of their leases at most. -/
structure SameButKeys (lm lm' : LeaseManager) : Prop where
  nextLeaseId : lm'.nextLeaseId = lm.nextLeaseId
  deleteKeyCallback : lm'.deleteKeyCallback = lm.deleteKeyCallback
  times : lm'.times = lm.times

theorem SameButKeys.refl (lm : LeaseManager) : lm.SameButKeys lm := ⟨rfl, rfl, rfl⟩

theorem SameButKeys.symm {lm lm' : LeaseManager} (h : lm.SameButKeys lm') : lm'.SameButKeys lm :=
  ⟨h.1.symm, h.2.symm, h.3.symm⟩

theorem SameButKeys.trans {lm lm' lm'' : LeaseManager} (h : lm.SameButKeys lm')
    (h' : lm'.SameButKeys lm'') : lm.SameButKeys lm'' :=
  ⟨h'.1.trans h.1, h'.2.trans h.2, h'.3.trans h.3⟩

theorem sameButKeys_modifyKeys (lm : LeaseManager) (L : Int)
    (f : UnorderedSet Bytes → UnorderedSet Bytes) : lm.SameButKeys (lm.modifyKeys L f) := by
  refine ⟨rfl, rfl, ?_⟩
  funext L'
  unfold times modifyKeys
  rw [UnorderedMap.find?_modify]
  split_ifs with hL
  · subst hL
    rw [Option.map_map]
    rfl
  · rfl

theorem sameButKeys_attachKey (lm : LeaseManager) (L : Int) (k : Bytes) :
    lm.SameButKeys (lm.attachKey L k).2 := by
  rw [attachKey_snd]
  exact sameButKeys_modifyKeys lm L _

theorem sameButKeys_detachKey (lm : LeaseManager) (L : Int) (k : Bytes) :
    lm.SameButKeys (lm.detachKey L k).2 := by
  rw [detachKey_snd]
  exact sameButKeys_modifyKeys lm L _

end LeaseManager

end EtcdLite
