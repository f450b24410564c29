import Mathlib.Data.Set.Card
import Mathlib.Data.Set.Finite.Basic
import Mathlib.Logic.Function.Basic

/-!
# A map with leases

A finite map whose keys may be attached to leases, each to one lease at most (`LeasedMap`). To
revoke leases is to remove them with their keys. Which keys a lease has is not kept a second time:
it is read off from what each key is attached to. So revocations add up, in whatever order they
come (`revoke_revoke`), and no key is counted twice (`ncard_keys_union`).
-/

universe u v w x

/-- A finite map, leases, and for each key the lease that it is attached to, if any: then the key
is in the map, and there is such a lease. -/
structure LeasedMap (K : Type u) (V : Type v) (I : Type w) (T : Type x) where
  data : K → Option V
  owner : K → Option I
  leases : I → Option T
  stored : ∀ k i, owner k = some i → (data k).isSome
  live : ∀ k i, owner k = some i → (leases i).isSome
  finite : {k | (data k).isSome}.Finite

namespace LeasedMap

variable {K : Type u} {V : Type v} {I : Type w} {T : Type x}

@[ext]
theorem ext {m m' : LeasedMap K V I T} (hdata : m.data = m'.data) (howner : m.owner = m'.owner)
    (hleases : m.leases = m'.leases) : m = m' := by
  cases m
  cases m'
  simp_all

/-- Nothing in it. -/
def empty (K : Type u) (V : Type v) (I : Type w) (T : Type x) : LeasedMap K V I T where
  data := fun _ => none
  owner := fun _ => none
  leases := fun _ => none
  stored := by simp
  live := by simp
  finite := by simp

/-- The keys that are attached to any of these leases. -/
def keys (m : LeasedMap K V I T) (S : Set I) : Set K := {k | ∃ i ∈ S, m.owner k = some i}

/-- A key is put, and attached to this lease if there is such a lease; it leaves the lease that it
was attached to. -/
def put [DecidableEq K] (m : LeasedMap K V I T) (k : K) (v : V) (i : I) : LeasedMap K V I T where
  data := Function.update m.data k (some v)
  owner := Function.update m.owner k (if (m.leases i).isSome then some i else none)
  leases := m.leases
  stored := by
    intro k' i' hk'
    by_cases hk : k' = k
    · rw [hk, Function.update_self]
      rfl
    · rw [Function.update_of_ne hk] at hk' ⊢
      exact m.stored k' i' hk'
  live := by
    intro k' i' hk'
    by_cases hk : k' = k
    · rw [hk, Function.update_self] at hk'
      split_ifs at hk' with hlive
      rwa [← Option.some.inj hk']
    · rw [Function.update_of_ne hk] at hk'
      exact m.live k' i' hk'
  finite := by
    refine (m.finite.insert k).subset fun k' hk' => ?_
    by_cases hk : k' = k
    · exact .inl hk
    · rw [Set.mem_ofPred_eq, Function.update_of_ne hk] at hk'
      exact .inr hk'

open Classical in
/-- These keys are removed. -/
noncomputable def remove (m : LeasedMap K V I T) (S : Set K) : LeasedMap K V I T where
  data := fun k => if k ∈ S then none else m.data k
  owner := fun k => if k ∈ S then none else m.owner k
  leases := m.leases
  stored := by
    intro k i hk
    split_ifs at hk ⊢
    exact m.stored k i hk
  live := by
    intro k i hk
    split_ifs at hk
    exact m.live k i hk
  finite := by
    refine m.finite.subset fun k hk => ?_
    rw [Set.mem_ofPred_eq] at hk
    split_ifs at hk
    · cases hk
    · exact hk

/-- A lease is granted, or renewed. -/
def grant [DecidableEq I] (m : LeasedMap K V I T) (i : I) (t : T) : LeasedMap K V I T where
  data := m.data
  owner := m.owner
  leases := Function.update m.leases i (some t)
  stored := m.stored
  live := by
    intro k i' hk
    by_cases hi : i' = i
    · rw [hi, Function.update_self]
      rfl
    · rw [Function.update_of_ne hi]
      exact m.live k i' hk
  finite := m.finite

open Classical in
/-- These leases are removed, with their keys. -/
noncomputable def revoke (m : LeasedMap K V I T) (S : Set I) : LeasedMap K V I T where
  data := (m.remove (m.keys S)).data
  owner := (m.remove (m.keys S)).owner
  leases := fun i => if i ∈ S then none else m.leases i
  stored := (m.remove (m.keys S)).stored
  live := by
    intro k i hk
    simp only [remove] at hk
    split_ifs at hk with hkeys
    rw [if_neg fun hi => hkeys ⟨i, hi, hk⟩]
    exact m.live k i hk
  finite := (m.remove (m.keys S)).finite

variable (m : LeasedMap K V I T)

open Classical in
theorem data_remove (S : Set K) (k : K) :
    (m.remove S).data k = if k ∈ S then none else m.data k := rfl

open Classical in
theorem owner_remove (S : Set K) (k : K) :
    (m.remove S).owner k = if k ∈ S then none else m.owner k := rfl

open Classical in
theorem data_revoke (S : Set I) (k : K) :
    (m.revoke S).data k = if k ∈ m.keys S then none else m.data k := rfl

open Classical in
theorem owner_revoke (S : Set I) (k : K) :
    (m.revoke S).owner k = if k ∈ m.keys S then none else m.owner k := rfl

open Classical in
theorem leases_revoke (S : Set I) (i : I) :
    (m.revoke S).leases i = if i ∈ S then none else m.leases i := rfl

theorem mem_keys_singleton {k : K} {i : I} : k ∈ m.keys {i} ↔ m.owner k = some i := by
  simp [keys]

theorem finite_keys (S : Set I) : (m.keys S).Finite := by
  refine m.finite.subset ?_
  rintro k ⟨i, -, hk⟩
  exact m.stored k i hk

/-- A lease that is not there has no keys. -/
theorem keys_of_dead {S : Set I} (h : ∀ i ∈ S, m.leases i = none) : m.keys S = ∅ := by
  rw [Set.eq_empty_iff_forall_notMem]
  rintro k ⟨i, hi, hk⟩
  have hlive := m.live k i hk
  rw [h i hi] at hlive
  cases hlive

/-- There is nothing to revoke. -/
theorem revoke_of_dead {S : Set I} (h : ∀ i ∈ S, m.leases i = none) : m.revoke S = m := by
  classical
  refine ext (funext fun k => ?_) (funext fun k => ?_) (funext fun i => ?_)
  · simp [data_revoke, m.keys_of_dead h]
  · simp [owner_revoke, m.keys_of_dead h]
  · rw [leases_revoke]
    split_ifs with hi
    · exact (h i hi).symm
    · rfl

/-! ### Revocations add up -/

theorem keys_union (S S' : Set I) : m.keys (S ∪ S') = m.keys S ∪ m.keys S' := by
  ext k
  simp [keys, or_and_right, exists_or]

/-- The keys of a lease are its own. -/
theorem keys_revoke (S S' : Set I) : (m.revoke S).keys S' = m.keys S' \ m.keys S := by
  ext k
  simp only [keys, revoke, remove, Set.mem_sdiff, Set.mem_ofPred_eq]
  split_ifs with hk
  · simp [hk]
  · simp [hk]

theorem revoke_revoke (S S' : Set I) : (m.revoke S).revoke S' = m.revoke (S ∪ S') := by
  classical
  have hkeys : ∀ k, k ∈ m.keys (S ∪ S') ↔ k ∈ (m.revoke S).keys S' ∨ k ∈ m.keys S := by
    intro k
    rw [keys_union, keys_revoke, Set.mem_union, Set.mem_sdiff]
    tauto
  refine ext (funext fun k => ?_) (funext fun k => ?_) (funext fun i => ?_)
  · simp only [data_revoke, hkeys, ite_or]
  · simp only [owner_revoke, hkeys, ite_or]
  · simp only [leases_revoke, Set.mem_union, or_comm (a := i ∈ S), ite_or]

/-- Revoking some leases, and then some others, removes as many keys as revoking them all. -/
theorem ncard_keys_union (S S' : Set I) :
    (m.keys (S ∪ S')).ncard = (m.keys S).ncard + ((m.revoke S).keys S').ncard := by
  rw [keys_union, keys_revoke, ← Set.union_sdiff_self]
  exact Set.ncard_union_eq Set.disjoint_sdiff_right (m.finite_keys S)
    ((m.finite_keys S').subset Set.sdiff_subset)

end LeasedMap
