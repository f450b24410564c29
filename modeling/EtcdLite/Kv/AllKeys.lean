import EtcdLite.Kv.History
import EtcdLite.Kv.Ranges
import EtcdLite.Model.KVService

/-!
# The range of all keys

A client asks for all keys by the range from `"\0"` to `"\0"`. It has the keys from `"\0"` on, and
these are all but one: the empty key is below. Neither `Put` nor the put branch of `Txn` looks at
the key it is given, so a client can store the empty key, and then the range misses it. In a run
the range has the whole store, for queries, deletions and watchers, as long as no request leaves
the empty key put (`all_keys_covered_iff`).
-/

namespace EtcdLite

open Server

/-! ### The range -/

/-- `"\0"`. -/
def zeroKey : Bytes := [0]

theorem keyInRange_zeroKey (k : Bytes) : keyInRange k zeroKey zeroKey = true ↔ k ≠ [] := by
  have hbot : IsBot (0 : UInt8) := fun b => UInt8.le_iff_toNat_le.mpr b.toNat.zero_le
  have hzero : ¬ ZeroLed zeroKey := fun h => h.2 rfl
  rw [keyInRange_iff_of_not_zeroLed hzero]
  exact singleton_le_iff hbot

/-- The range from `"\0"` to `"\0"` has the whole store. -/
structure AllKeysCovered (s : Server) : Prop where
  /-- A query that is not limited answers every entry, in the form it is asked for. -/
  range : ∀ request : RangeRequest, request.key = zeroKey → request.rangeEnd = zeroKey →
    request.limit ≤ 0 → (KVService.range s request).kvs.Perm
      (s.kvStore.data.toList.map fun e => KVStore.rangeElem request.countOnly request.keysOnly e.2)
  /-- A deletion leaves the store empty. -/
  delete : ∀ request : DeleteRangeRequest, request.key = zeroKey → request.rangeEnd = zeroKey →
    (KVService.deleteRange s request).2.kvStore.data.toList = []
  /-- A watcher matches every key that is stored. -/
  watch : ∀ (w : Watcher) (k : Bytes), w.key = zeroKey → w.rangeEnd = zeroKey →
    (s.kvStore.data.find? k).isSome → keyMatchesWatcher k w = true

/-- The empty key is out of the range, and so a deletion leaves it. -/
theorem deleteRange_zeroKey_nil (s : Server) (request : DeleteRangeRequest)
    (hkey : request.key = zeroKey) (hend : request.rangeEnd = zeroKey) :
    (KVService.deleteRange s request).2.data [] = s.data [] := by
  have hout : ¬ keyInRange [] zeroKey zeroKey = true := fun hr => (keyInRange_zeroKey []).mp hr rfl
  rw [congrFun (data_deleteRange s request) [], hkey, hend, if_neg hout]

section Covered

variable {s : Server}

/-- Without the empty key, every stored key is in the range. -/
theorem stored_in_range (h : s.data [] = none) {k : Bytes} {info : KeyInfo}
    (hk : s.data k = some info) : keyInRange k zeroKey zeroKey = true := by
  refine (keyInRange_zeroKey k).mpr ?_
  rintro rfl
  cases h.symm.trans hk

theorem range_zeroKey (h : s.data [] = none) {request : RangeRequest} (hkey : request.key = zeroKey)
    (hend : request.rangeEnd = zeroKey) (hlimit : request.limit ≤ 0) :
    (KVService.range s request).kvs.Perm (s.kvStore.data.toList.map fun e =>
      KVStore.rangeElem request.countOnly request.keysOnly e.2) := by
  have hperm := (s.kvStore.sortedInfos_perm zeroKey zeroKey).map
    (KVStore.rangeElem request.countOnly request.keysOnly)
  have hall : s.kvStore.data.toList.filter (fun e => keyInRange e.1 zeroKey zeroKey) =
      s.kvStore.data.toList :=
    List.filter_eq_self.mpr fun e he => stored_in_range h (UnorderedMap.mem_toList.mp he)
  rw [hall, List.map_map] at hperm
  rw [KVService.range, hkey, hend, KVStore.range, KVStore.rangeInternal_eq,
    if_neg (not_lt.mpr hlimit)]
  exact hperm

theorem deleteRange_zeroKey (h : s.data [] = none) {request : DeleteRangeRequest}
    (hkey : request.key = zeroKey) (hend : request.rangeEnd = zeroKey) :
    (KVService.deleteRange s request).2.kvStore.data.toList = [] := by
  refine List.eq_nil_iff_forall_not_mem.mpr ?_
  rintro ⟨k, info⟩ hmem
  have hk : (KVService.deleteRange s request).2.data k = some info :=
    UnorderedMap.mem_toList.mp hmem
  rw [congrFun (data_deleteRange s request) k, hkey, hend] at hk
  split_ifs at hk with hr
  exact hr (stored_in_range h hk)

/-- **The range has the whole store exactly when the empty key is not stored.** -/
theorem allKeysCovered_iff : AllKeysCovered s ↔ s.data [] = none := by
  constructor
  · intro h
    by_contra hne
    obtain ⟨info, hinfo⟩ := Option.ne_none_iff_exists'.mp hne
    let request : DeleteRangeRequest := { key := zeroKey, rangeEnd := zeroKey }
    have hempty := h.delete request rfl rfl
    have hleft := (deleteRange_zeroKey_nil s request rfl rfl).trans hinfo
    have hmem := UnorderedMap.mem_toList.mpr hleft
    rw [hempty] at hmem
    cases hmem
  · intro h
    refine ⟨fun request => range_zeroKey h, fun request => deleteRange_zeroKey h, ?_⟩
    intro w k hkey hend hk
    obtain ⟨info, hinfo⟩ := Option.isSome_iff_exists.mp hk
    rw [keyMatchesWatcher_eq, hkey, hend]
    exact stored_in_range h hinfo

end Covered

/-! ### Requests -/

/-- A client's request to write. -/
inductive WriteRequest where
  | put (r : PutRequest)
  | deleteRange (r : DeleteRangeRequest)
  | txn (r : TxnRequest)

/-- What its handler does to the server. -/
def WriteRequest.exec (s : Server) : WriteRequest → Server
  | .put r => (KVService.put s r).2
  | .deleteRange r => (KVService.deleteRange s r).2
  | .txn r => (KVService.txn s r).2

/-- The operation of the store that the handler calls. -/
def WriteRequest.op : WriteRequest → KvOp
  | .put r => .put r.key r.value r.lease (if r.prevKv then some {} else none)
  | .deleteRange r => .delete r.key r.rangeEnd true
  | .txn r => .txn r.compare r.success r.failure

theorem WriteRequest.exec_eq (s : Server) (r : WriteRequest) : r.exec s = r.op.exec s := by
  cases r <;> rfl

/-- The operations of a transaction leave a key put: one puts it, and no deletion after that has it in
its range. -/
def LeavesPut (k : Bytes) (ops : List RequestOp) : Prop :=
  ∃ r after, (.requestPut r :: after) <:+ ops ∧ r.key = k ∧
    ∀ d, .requestDeleteRange d ∈ after → keyInRange k d.key d.rangeEnd = false

/-- The request does not leave the empty key put. -/
def WriteRequest.SparesEmptyKey (s : Server) : WriteRequest → Prop
  | .put r => r.key ≠ []
  | .deleteRange _ => True
  | .txn r => ¬ LeavesPut [] (s.chosenOps r.compare r.success r.failure)

/-! ### What a transaction leaves put -/

theorem leavesPut_cons {k : Bytes} {op : RequestOp} {ops : List RequestOp} :
    LeavesPut k (op :: ops) ↔ LeavesPut k ops ∨ ∃ r, op = .requestPut r ∧ r.key = k ∧
      ∀ d, .requestDeleteRange d ∈ ops → keyInRange k d.key d.rangeEnd = false := by
  simp only [LeavesPut, List.suffix_cons_iff, List.cons.injEq]
  constructor
  · rintro ⟨r, after, ⟨rfl, rfl⟩ | hsuffix, hr⟩
    · exact .inr ⟨r, rfl, hr⟩
    · exact .inl ⟨r, after, hsuffix, hr⟩
  · rintro (⟨r, after, hsuffix, hr⟩ | ⟨r, rfl, hr⟩)
    · exact ⟨r, after, .inr hsuffix, hr⟩
    · exact ⟨r, ops, .inl ⟨rfl, rfl⟩, hr⟩

/-- No write of the operations deletes a key when no deletion has it in its range. -/
theorem spares_writes_iff {k : Bytes} {R : Int} {ops : List RequestOp} :
    (∀ w ∈ ops.flatMap (RequestOp.writes R), w.deletes k = false) ↔
      ∀ d, .requestDeleteRange d ∈ ops → keyInRange k d.key d.rangeEnd = false := by
  constructor
  · intro h d hd
    exact h (.delete d.key d.rangeEnd) (List.mem_flatMap.mpr ⟨_, hd, List.mem_singleton_self _⟩)
  · intro h w hw
    obtain ⟨op, hop, hw⟩ := List.mem_flatMap.mp hw
    cases op with
    | requestPut r => rw [List.mem_singleton.mp hw]; rfl
    | requestDeleteRange d => rw [List.mem_singleton.mp hw]; exact h d hop
    | requestRange r => cases hw
    | requestTxn c p q => cases hw
    | notSet => cases hw

/-- A key is left put when the writes give it a live put. -/
theorem leavesPut_iff (k : Bytes) (R : Int) (ops : List RequestOp) :
    LeavesPut k ops ↔ livePuts k (ops.flatMap (RequestOp.writes R)) ≠ [] := by
  induction ops with
  | nil => simp [LeavesPut, livePuts]
  | cons op ops ih =>
    rw [leavesPut_cons, ih, List.flatMap_cons]
    cases op with
    | requestPut r =>
      rw [RequestOp.writes, List.singleton_append, livePuts_cons_ne_nil, spares_writes_iff]
      simp [Write.putOf]
    | requestDeleteRange d =>
      rw [RequestOp.writes, List.singleton_append, livePuts_cons_ne_nil]
      simp [Write.putOf]
    | requestRange r => simp [RequestOp.writes]
    | requestTxn c p q => simp [RequestOp.writes]
    | notSet => simp [RequestOp.writes]

/-! ### Runs of requests -/

/-- A request spares the empty key when its operation leaves no put of it. -/
theorem sparesEmptyKey_iff_leaves (s : Server) (r : WriteRequest) :
    r.SparesEmptyKey s ↔ r.op.leaves s [] = none := by
  cases r with
  | put r => exact (leaves_put s r.key r.value r.lease _ []).symm
  | deleteRange r => exact iff_of_true trivial (leaves_delete s r.key r.rangeEnd true [])
  | txn r =>
    rw [WriteRequest.SparesEmptyKey, leavesPut_iff [] (s.kvStore.revision + 1), not_not]
    exact List.getLast?_eq_none_iff.symm

/-- That is exactly what keeps the empty key out of the store. -/
theorem sparesEmptyKey_iff {s : Server} (h : s.data [] = none) (r : WriteRequest) :
    r.SparesEmptyKey s ↔ (r.exec s).data [] = none := by
  rw [WriteRequest.exec_eq, sparesEmptyKey_iff_leaves]
  rcases exec_data_cases s r.op [] with ⟨p, info, hp, hk, -⟩ | ⟨hp, hk⟩ | ⟨hp, -, hk⟩
  · rw [hp, hk]
    simp
  · exact iff_of_true hp hk
  · exact iff_of_true hp (hk.trans h)

/-- **The range of all keys covers the store exactly as long as no request leaves the empty key
put.** In a run of any clients' requests on a new server: the range from `"\0"` to `"\0"` has the
whole store in every state exactly when each `Put` names another key than the empty one, and each
`Txn` that puts it deletes it afterwards. -/
theorem all_keys_covered_iff (env : Env) (reqs : List WriteRequest) :
    (∀ pre, pre <+: reqs →
      AllKeysCovered (Run.final WriteRequest.exec (Server.new env) pre)) ↔
        Run.Along WriteRequest.exec WriteRequest.SparesEmptyKey (Server.new env) reqs := by
  simp only [allKeysCovered_iff]
  exact (Run.along_iff_always WriteRequest.exec (I := fun _ => True)
    (J := fun s => s.data [] = none) (fun _ _ _ => trivial)
    (fun s r _ h => sparesEmptyKey_iff h r) trivial rfl reqs).symm

/-- After a put of the empty key, the range misses it. -/
theorem empty_key_missed :
    ¬ AllKeysCovered (Run.final WriteRequest.exec (Server.new .plain) [.put { value := [118] }]) := by
  rw [allKeysCovered_iff]
  exact Option.some_ne_none _

end EtcdLite
