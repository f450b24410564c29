import EtcdLite.Lease.System

/-!
# What a deletion does

`Delete` looks a single key up and erases it, and for a range collects what is to go and then
erases it in a loop; each erased key is detached from its lease. On every server that a run
leads to, both ways remove exactly the keys of the range, take each from the key set of its
own lease, and return the removed key-values (`delete_exact`).

Nothing of what is left depends on how the tables are ordered: two servers with the
same contents (`SameContents`) have the same contents afterwards, whichever of the two ways each
takes, and whether or not the removed key-values are asked for.
-/

namespace EtcdLite

open Server

/-- The same entries, leases and counters, in whatever order the tables have them. -/
structure SameContents (s t : Server) : Prop where
  data : t.kvStore.data.find? = s.kvStore.data.find?
  revision : t.kvStore.revision = s.kvStore.revision
  wired : t.kvStore.leaseManager = s.kvStore.leaseManager
  keySet : t.leaseManager.keySet = s.leaseManager.keySet
  leases : s.leaseManager.SameButKeys t.leaseManager

/-- The key is in the store, bound to the lease. -/
def BoundTo (s : Server) (k : Bytes) (L : Int) : Prop :=
  ∃ info, s.kvStore.data.find? k = some info ∧ info.kv.lease = L

/-- The deletion of a range does no more than its stored keys ask for. -/
theorem Books.write_delete_congr (b : Books) {key rangeEnd key' rangeEnd' : Bytes}
    (h : ∀ k, (b.data k).isSome → keyInRange k key' rangeEnd' = keyInRange k key rangeEnd) :
    b.write (.delete key' rangeEnd') = b.write (.delete key rangeEnd) := by
  ext1
  · funext k
    simp only [Books.write, Write.onData]
    cases hk : b.data k with
    | none => simp
    | some info => rw [h k (by rw [hk]; rfl)]
  · funext L
    simp only [Books.write]
    congr 1
    funext S
    ext k
    simp only [Write.onKeys, Set.mem_ofPred_eq]
    cases hk : b.data k with
    | none =>
      have hne : ¬ (0 < L ∧ L = leaseOf none) := by
        rw [show leaseOf none = 0 from rfl]
        omega
      simp [hne]
    | some info => rw [h k (by rw [hk]; rfl)]

/-- A deletion leaves the same contents of the same contents. -/
theorem SameContents.delete {s s' : Server} (hs : SameContents s s')
    (hw : s.kvStore.leaseManager = true) {key rangeEnd key' rangeEnd' : Bytes}
    (h : ∀ k, (s.data k).isSome → keyInRange k key' rangeEnd' = keyInRange k key rangeEnd)
    (prevKvs prevKvs' : Bool) :
    SameContents (s.delete key rangeEnd prevKvs).2 (s'.delete key' rangeEnd' prevKvs').2 := by
  have hbooks : s'.books = s.books := Books.ext hs.data hs.keySet
  have hleft := (delete_done s key rangeEnd prevKvs).books_eq hw
  have hright := (delete_done s' key' rangeEnd' prevKvs').books_eq (hs.wired.trans hw)
  rw [hbooks, s.books.write_delete_congr h, ← hleft] at hright
  have hrest := delete_wiring s key rangeEnd prevKvs
  have hrest' := delete_wiring s' key' rangeEnd' prevKvs'
  exact {
    data := congrArg Books.data hright
    revision := by rw [delete_kvStore, delete_kvStore, hs.revision]
    wired := (hrest'.leaseManager.trans hs.wired).trans hrest.leaseManager.symm
    keySet := congrArg Books.leases hright
    leases := (hrest.leases.symm.trans hs.leases).trans hrest'.leases }

/-- A stored entry names a lease exactly when its key is bound to it. -/
theorem leaseOf_iff_boundTo {s : Server} {k : Bytes} {L : Int} (hpos : 0 < L) :
    (0 < L ∧ L = leaseOf (s.books.data k)) ↔ BoundTo s k L := by
  rw [BoundTo]
  show _ ↔ ∃ info, s.books.data k = some info ∧ _
  cases s.books.data k with
  | none =>
    rw [show leaseOf none = 0 from rfl]
    simp only [reduceCtorEq, false_and, exists_false, iff_false]
    omega
  | some info => simp [leaseOf, hpos, eq_comm]

/-- A deletion takes each key of its range from the key set of the lease it is bound to. -/
theorem Sound.keySet_delete {s : Server} {tag : Tag} (h : Sound s tag)
    (key rangeEnd : Bytes) (prevKvs : Bool) (L : Int) :
    (s.delete key rangeEnd prevKvs).2.leaseManager.keySet L =
      (s.leaseManager.keySet L).map fun S =>
        {k | k ∈ S ∧ ¬ (keyInRange k key rangeEnd = true ∧ BoundTo s k L)} := by
  have hbooks := (delete_done s key rangeEnd prevKvs).books_eq h.wired
  have hkeys : (s.delete key rangeEnd prevKvs).2.leaseManager.keySet L =
      (s.leaseManager.keySet L).map _ :=
    congrFun (congrArg Books.leases hbooks) L
  rw [hkeys]
  cases hL : s.leaseManager.keySet L with
  | none => rfl
  | some S =>
    have hpos : 0 < L := (h.ids L (by rw [LeaseManager.Live, hL]; rfl)).1
    rw [Option.map_some, Option.map_some]
    congr 1
    ext k
    simp only [Write.onKeys, Set.mem_ofPred_eq, leaseOf_iff_boundTo hpos]

/-- The keys of a range are collected once each. -/
theorem nodup_matched_keys (s : Server) (key rangeEnd : Bytes) :
    ((s.matched key rangeEnd).map Prod.fst).Nodup := by
  have hsub : (s.matched key rangeEnd).Sublist s.kvStore.data.toList := List.filter_sublist
  exact (hsub.map Prod.fst).nodup s.kvStore.data.nodup_keys

/-- **Deletions are exact.** On every server that a run leads to, a deletion removes the stored
keys of its range, and leaves every other entry as it is; takes each removed key from the key
set of the lease it is bound to, and changes nothing else of any lease; and returns the
removed key-values, each once, when they are asked for. What it leaves depends only on the
contents of the server and on which stored keys the range has: not on the order of the tables,
on whether the key-values are asked for, or on the way a single key is deleted. -/
theorem delete_exact (env : Env) (clock : Int) (acts : List Act) (key rangeEnd : Bytes)
    (prevKvs : Bool) :
    let s := ((System.start env clock).run acts).server
    let t := (s.delete key rangeEnd prevKvs).2
    (∀ k, t.kvStore.data.find? k =
        if keyInRange k key rangeEnd then none else s.kvStore.data.find? k) ∧
      (∀ L, t.leaseManager.keySet L = (s.leaseManager.keySet L).map fun S =>
        {k | k ∈ S ∧ ¬ (keyInRange k key rangeEnd = true ∧ BoundTo s k L)}) ∧
      s.leaseManager.SameButKeys t.leaseManager ∧
      (∃ removed : List (Bytes × KeyInfo), (removed.map Prod.fst).Nodup ∧
        (∀ k info, (k, info) ∈ removed ↔
          s.kvStore.data.find? k = some info ∧ keyInRange k key rangeEnd = true) ∧
        (s.delete key rangeEnd prevKvs).1 =
          if prevKvs then some (removed.map fun e => e.2.kv) else none) ∧
      (∀ s' key' rangeEnd' prevKvs', SameContents s s' →
        (∀ k, (s.kvStore.data.find? k).isSome →
          keyInRange k key' rangeEnd' = keyInRange k key rangeEnd) →
        SameContents t (s'.delete key' rangeEnd' prevKvs').2) ∧
      s.deleteSingle key prevKvs = s.deleteMany key [] prevKvs := by
  intro s t
  have hsound := sound_run env clock acts
  have hbooks : t.books = s.books.write (.delete key rangeEnd) :=
    (delete_done s key rangeEnd prevKvs).books_eq hsound.wired
  refine ⟨congrFun (congrArg Books.data hbooks), hsound.keySet_delete key rangeEnd prevKvs,
    (delete_wiring s key rangeEnd prevKvs).leases,
    ⟨s.matched key rangeEnd, ?_, fun k info => ?_, s.delete_fst key rangeEnd prevKvs⟩,
    fun s' key' rangeEnd' prevKvs' hs h => ?_, s.deleteSingle_eq key prevKvs⟩
  · exact nodup_matched_keys s key rangeEnd
  · exact mem_matched
  · exact hs.delete hsound.wired h prevKvs prevKvs'

end EtcdLite
