import EtcdLite.Model.KVService

/-!
# What a write does

One lemma for each part of the server and each of `Put`, `Delete` and the write
branches of `Txn`: what the operation does to the store, to the lease manager and to
its outputs. The callbacks only write to streams, so they leave these alone; `Put` and
the put branch of `Txn` store the same entry (`putInfo`) and relink the key in the same
way (`relink`); and the branch of `Delete` for a single key does what its loop does
(`deleteSingle_eq`), so `Delete` and the delete branch of `Txn` erase alike.
-/

namespace EtcdLite.Server

/-! ### The callbacks -/

/-- Two servers that differ at most in what their streams have been sent. -/
structure SameButStreams (s t : Server) : Prop where
  kvStore : t.kvStore = s.kvStore
  leaseManager : t.leaseManager = s.leaseManager
  watchManager : t.watchManager = s.watchManager

theorem SameButStreams.refl (s : Server) : SameButStreams s s := ⟨rfl, rfl, rfl⟩

theorem SameButStreams.trans {s t u : Server} (h : SameButStreams s t) (h' : SameButStreams t u) :
    SameButStreams s u :=
  ⟨h'.kvStore.trans h.kvStore, h'.leaseManager.trans h.leaseManager,
    h'.watchManager.trans h.watchManager⟩

theorem foldl_deleteCallback (kvs : List KeyValue) (s : Server) :
    SameButStreams s (kvs.foldl (fun s kv => s.deleteCallback kv.key kv) s) := by
  induction kvs generalizing s with
  | nil => exact .refl s
  | cons kv kvs ih =>
    have h : SameButStreams s (s.deleteCallback kv.key kv) := ⟨rfl, rfl, rfl⟩
    exact h.trans (ih _)

/-! ### Put -/

/-- The entry a put stores, given the entry there was. -/
def putInfo (old : Option KeyInfo) (key value : Bytes) (lease revision : Int) : KeyInfo :=
  let kv : KeyValue :=
    { key := key, value := value, lease := lease,
      createRevision := (old.map KeyInfo.createRevision).getD revision,
      modRevision := revision,
      version := (old.map fun info => info.version + 1).getD 1 }
  { kv := kv, createRevision := kv.createRevision, modRevision := kv.modRevision,
    version := kv.version }

/-- The lease of the entry there was, `0` when there was none. -/
def leaseOf (old : Option KeyInfo) : Int := (old.map fun info => info.kv.lease).getD 0

/-- What a put does at the lease manager: the key leaves its old lease, if it had one, and
joins the new one, if it has one. -/
def relink (hasLeaseManager : Bool) (old : Option KeyInfo) (key : Bytes) (lease : Int)
    (lm : LeaseManager) : LeaseManager :=
  if hasLeaseManager then
    let lm := if leaseOf old > 0 then (lm.detachKey (leaseOf old) key).2 else lm
    if lease > 0 then (lm.attachKey lease key).2 else lm
  else lm

/-- The three-way case split of `Put` and `Txn` is `relink`. -/
theorem relink_eq (b : Bool) (old : Option KeyInfo) (key : Bytes) (lease : Int) (lm : LeaseManager) :
    (if lease > 0 ∧ b = true then
      ((if old.isSome = true ∧ ((old.map KeyInfo.kv).getD {}).lease > 0 then
          (lm.detachKey ((old.map KeyInfo.kv).getD {}).lease key).2
        else lm).attachKey lease key).2
    else if old.isSome = true ∧ ((old.map KeyInfo.kv).getD {}).lease > 0 ∧ b = true then
      (lm.detachKey ((old.map KeyInfo.kv).getD {}).lease key).2
    else lm) = relink b old key lease lm := by
  unfold relink leaseOf
  cases b with
  | false => simp
  | true => cases old <;> by_cases hl : lease > 0 <;> simp [hl]

section Put

variable (s : Server) (key value : Bytes) (lease : Int) (prevKv : Option KeyValue)

theorem put_kvStore : (s.put key value lease prevKv).2.kvStore =
    { s.kvStore with
      revision := s.kvStore.revision + 1
      data := s.kvStore.data.insert key
        (putInfo (s.kvStore.data.find? key) key value lease (s.kvStore.revision + 1)) } := by
  unfold put
  dsimp only
  split_ifs <;> rfl

theorem put_leaseManager : (s.put key value lease prevKv).2.leaseManager =
    relink s.kvStore.leaseManager (s.kvStore.data.find? key) key lease s.leaseManager := by
  rw [← relink_eq]
  unfold put
  dsimp only
  split_ifs <;> rfl

theorem put_fst : (s.put key value lease prevKv).1 =
    prevKv.map fun p => ((s.kvStore.data.find? key).map KeyInfo.kv).getD p := by
  unfold put
  cases s.kvStore.data.find? key <;> rfl

theorem txnPut_leaseManager (newRevision : Int) (r : PutRequest) :
    (s.txnPut newRevision r).2.leaseManager =
      relink s.kvStore.leaseManager (s.kvStore.data.find? r.key) r.key r.lease s.leaseManager :=
  relink_eq _ _ _ _ _

end Put

/-! ### Delete -/

/-- The entries in a range, in iteration order. -/
def matched (s : Server) (key rangeEnd : Bytes) : List (Bytes × KeyInfo) :=
  s.kvStore.data.toList.filter fun e => keyInRange e.1 key rangeEnd

theorem mem_matched {s : Server} {key rangeEnd k : Bytes} {info : KeyInfo} :
    (k, info) ∈ s.matched key rangeEnd ↔
      s.kvStore.data.find? k = some info ∧ keyInRange k key rangeEnd = true := by
  simp [matched, UnorderedMap.mem_toList]

/-- A single key matches itself only. -/
theorem matched_nil (s : Server) (key : Bytes) :
    s.matched key [] = (s.kvStore.data.find? key).toList.map fun info => (key, info) := by
  rw [← UnorderedMap.filter_key, matched]
  congr 1
  funext e
  rw [Bool.eq_iff_iff, keyInRange_nil, decide_eq_true_eq]

/-- The range branch of `Delete`, and the delete branch of `Txn`, at the store and the
lease manager. -/
def eraseMatched (s : Server) (key rangeEnd : Bytes) : UnorderedMap Bytes KeyInfo × LeaseManager :=
  detachAndErase s.kvStore.leaseManager
    ((s.matched key rangeEnd).map fun e => (e.1, e.2.kv.lease)) s.kvStore.data s.leaseManager

/-- The branch for a single key does what the loop over a range would do. -/
theorem deleteSingle_eq (s : Server) (key : Bytes) (prevKvs : Bool) :
    s.deleteSingle key prevKvs = s.deleteMany key [] prevKvs := by
  have hm := s.matched_nil key
  unfold matched at hm
  unfold deleteSingle deleteMany detachAndErase
  rw [hm]
  cases s.kvStore.data.find? key with
  | none => cases prevKvs <;> rfl
  | some info => rfl

section Delete

variable (s : Server) (key rangeEnd : Bytes) (prevKvs : Bool)

/-- `Delete`, with its two branches made one. -/
theorem delete_eq : s.delete key rangeEnd prevKvs =
    let r := (s.setRevision (s.kvStore.revision + 1)).deleteMany key rangeEnd prevKvs
    (if prevKvs then some r.1 else none,
      if r.2.kvStore.deleteCallback then
        r.1.foldl (fun s kv => s.deleteCallback kv.key kv) r.2
      else r.2) := by
  unfold delete
  cases rangeEnd with
  | nil => simp only [List.isEmpty_nil, if_true, deleteSingle_eq]
  | cons b bs => rfl

theorem delete_snd : SameButStreams
    { s with
      kvStore := { s.kvStore with
        revision := s.kvStore.revision + 1, data := (s.eraseMatched key rangeEnd).1 }
      leaseManager := (s.eraseMatched key rangeEnd).2 }
    (s.delete key rangeEnd prevKvs).2 := by
  rw [delete_eq]
  dsimp only
  split_ifs with h
  · exact foldl_deleteCallback _ _
  · exact .refl _

theorem delete_kvStore : (s.delete key rangeEnd prevKvs).2.kvStore =
    { s.kvStore with
      revision := s.kvStore.revision + 1, data := (s.eraseMatched key rangeEnd).1 } :=
  (s.delete_snd key rangeEnd prevKvs).kvStore

theorem delete_leaseManager :
    (s.delete key rangeEnd prevKvs).2.leaseManager = (s.eraseMatched key rangeEnd).2 :=
  (s.delete_snd key rangeEnd prevKvs).leaseManager

theorem delete_fst : (s.delete key rangeEnd prevKvs).1 =
    if prevKvs then some ((s.matched key rangeEnd).map fun e => e.2.kv) else none := by
  rw [delete_eq]
  cases prevKvs <;> rfl

end Delete

/-! ### Txn -/

section Txn

variable (s : Server) (compares : List Compare) (success failure : List RequestOp)

/-- A guard does not read the revision. -/
@[simp] theorem evaluateCompares_setRevision (revision : Int) :
    (s.setRevision revision).kvStore.evaluateCompares compares =
      s.kvStore.evaluateCompares compares := by
  rw [Bool.eq_iff_iff, KVStore.evaluateCompares_iff, KVStore.evaluateCompares_iff]
  rfl

@[simp] theorem chosenOps_setRevision (revision : Int) :
    (s.setRevision revision).chosenOps compares success failure =
      s.chosenOps compares success failure := by
  simp only [chosenOps, evaluateCompares_setRevision]

/-- A transaction, as the loop over the operations it chooses. -/
theorem txn_snd : (s.txn compares success failure).2 =
    ((s.setRevision (s.kvStore.revision + 1)).txnOps (s.kvStore.revision + 1)
      (s.chosenOps compares success failure)).2 := by
  rw [← chosenOps_setRevision s compares success failure (s.kvStore.revision + 1)]
  rfl

/-- The responses of a transaction, as the loop gives them. -/
theorem txn_responses : (s.txn compares success failure).1.responses =
    ((s.setRevision (s.kvStore.revision + 1)).txnOps (s.kvStore.revision + 1)
      (s.chosenOps compares success failure)).1 := by
  rw [← chosenOps_setRevision s compares success failure (s.kvStore.revision + 1)]
  rfl

/-- A transaction succeeds when its guard holds. -/
theorem txn_succeeded : (s.txn compares success failure).1.succeeded =
    s.kvStore.evaluateCompares compares :=
  evaluateCompares_setRevision s compares (s.kvStore.revision + 1)

end Txn

/-! ### The lease manager's part of a deletion -/

/-- Erasing the collected keys, at the store. -/
theorem detachAndErase_fst (b : Bool) (pairs : List (Bytes × Int))
    (data : UnorderedMap Bytes KeyInfo) (lm : LeaseManager) :
    (detachAndErase b pairs data lm).1 = pairs.foldl (fun data p => data.erase p.1) data := by
  unfold detachAndErase
  induction pairs generalizing data lm with
  | nil => rfl
  | cons p pairs ih => exact ih _ _

/-- Detaching the collected keys changes key sets only. -/
theorem detachAndErase_snd_frame (b : Bool) (pairs : List (Bytes × Int))
    (data : UnorderedMap Bytes KeyInfo) (lm : LeaseManager) :
    lm.SameButKeys (detachAndErase b pairs data lm).2 := by
  unfold detachAndErase
  induction pairs generalizing data lm with
  | nil => exact .refl lm
  | cons p pairs ih =>
    rw [List.foldl_cons]
    refine LeaseManager.SameButKeys.trans ?_ (ih _ _)
    split_ifs
    · exact lm.sameButKeys_detachKey p.2 p.1
    · exact .refl lm

/-- Detaching a key from the lease it names, if it names one. -/
theorem keySet_detach_pos (lm : LeaseManager) (lease : Int) (key : Bytes) (L : Int) :
    (if lease > 0 then (lm.detachKey lease key).2 else lm).keySet L =
      (lm.keySet L).map fun S => if 0 < L ∧ L = lease then S \ {key} else S := by
  by_cases h : lease > 0
  · have hiff : (0 < L ∧ L = lease) ↔ L = lease := ⟨And.right, fun e => ⟨e ▸ h, e⟩⟩
    simp only [if_pos h, LeaseManager.keySet_detachKey, hiff]
  · have hne : ¬ (0 < L ∧ L = lease) := fun ⟨h₁, h₂⟩ => h (h₂ ▸ h₁)
    simp only [if_neg h, if_neg hne, Option.map_id']

/-- Attaching a key to the lease it names, if it names one. -/
theorem keySet_attach_pos (lm : LeaseManager) (lease : Int) (key : Bytes) (L : Int) :
    (if lease > 0 then (lm.attachKey lease key).2 else lm).keySet L =
      (lm.keySet L).map fun S => if 0 < L ∧ L = lease then insert key S else S := by
  by_cases h : lease > 0
  · have hiff : (0 < L ∧ L = lease) ↔ L = lease := ⟨And.right, fun e => ⟨e ▸ h, e⟩⟩
    simp only [if_pos h, LeaseManager.keySet_attachKey, hiff]
  · have hne : ¬ (0 < L ∧ L = lease) := fun ⟨h₁, h₂⟩ => h (h₂ ▸ h₁)
    simp only [if_neg h, if_neg hne, Option.map_id']

/-- Detaching the collected keys: each leaves the key set of its own lease. -/
theorem detachAndErase_keySet (pairs : List (Bytes × Int))
    (data : UnorderedMap Bytes KeyInfo) (lm : LeaseManager) (L : Int) :
    (detachAndErase true pairs data lm).2.keySet L =
      (lm.keySet L).map fun S => {k | k ∈ S ∧ ¬ (0 < L ∧ (k, L) ∈ pairs)} := by
  unfold detachAndErase
  induction pairs generalizing data lm with
  | nil => simp
  | cons p pairs ih =>
    obtain ⟨k, lease⟩ := p
    rw [List.foldl_cons, ih]
    simp only [and_true, keySet_detach_pos, Option.map_map]
    congr 1
    funext S
    ext k'
    by_cases hL : 0 < L ∧ L = lease
    · obtain ⟨h₁, rfl⟩ := hL
      simp [h₁]
      tauto
    · simp only [Function.comp, if_neg hL, Set.mem_ofPred_eq, List.mem_cons, Prod.mk.injEq]
      tauto

/-- Putting a key: its old lease loses it, the new one gains it, and no other changes. -/
theorem relink_keySet (old : Option KeyInfo) (key : Bytes) (lease : Int) (lm : LeaseManager)
    (L : Int) : (relink true old key lease lm).keySet L = (lm.keySet L).map fun S =>
      if 0 < L ∧ L = lease then insert key S
      else if 0 < L ∧ L = leaseOf old then S \ {key} else S := by
  unfold relink
  simp only [if_true, keySet_attach_pos, keySet_detach_pos, Option.map_map]
  congr 1
  funext S
  simp only [Function.comp]
  by_cases h₁ : 0 < L ∧ L = lease
  · rw [if_pos h₁, if_pos h₁]
    split_ifs <;> simp
  · rw [if_neg h₁, if_neg h₁]

/-- Putting a key changes key sets only. -/
theorem relink_frame (b : Bool) (old : Option KeyInfo) (key : Bytes) (lease : Int)
    (lm : LeaseManager) : lm.SameButKeys (relink b old key lease lm) := by
  unfold relink
  dsimp only
  split_ifs
  · exact (lm.sameButKeys_detachKey _ key).trans (LeaseManager.sameButKeys_attachKey _ lease key)
  · exact lm.sameButKeys_attachKey lease key
  · exact lm.sameButKeys_detachKey _ key
  · exact .refl lm
  · exact .refl lm

end EtcdLite.Server
