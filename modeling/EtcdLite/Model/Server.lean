import EtcdLite.Model.LeaseManager
import EtcdLite.Model.WatchManager

/-!
# The server

`EtcdLiteServer`: the store, the lease manager and the watch manager, wired together
by the constructor (`server.cpp`), and the functions that cross from one to another:
`KVStore::Put`, `Delete` and `Txn` (`kv_store.cpp`), which detach and attach keys at
the lease manager and call the watch callbacks, and `LeaseManager::Revoke` and
`CheckExpiration` (`lease_manager.cpp`), which delete keys through a callback.

Each function takes the whole server and returns it, after its outputs. `Put`,
`Delete` and `Txn` run under `KVStore::mutex_`, and are one step. They return
`Status::OK()` always, and the status is left out.
-/

namespace EtcdLite

/-- `EtcdLiteServer`, and the response streams of its watchers. -/
structure Server where
  /-- `kvStore_`. -/
  kvStore : KVStore
  /-- `leaseManager_`. -/
  leaseManager : LeaseManager
  /-- `watchManager_`. -/
  watchManager : WatchManager
  /-- The streams. -/
  streams : Streams

/-- What the run-time leaves open about a new server: the iteration orders its tables
will have, and which writes to its streams will succeed. -/
structure Env where
  /-- The layout of `data_`. -/
  data : Layout Bytes KeyInfo
  /-- The layout of `leases_`. -/
  leases : Layout Int LeaseInfo
  /-- The layout of each lease's key set. -/
  keys : Int → Layout Bytes Unit
  /-- The layout of `watchers_`. -/
  watchers : Layout Int Watcher
  /-- The outcomes of the writes to each stream. -/
  outcomes : StreamId → ℕ → Bool

/-- The environment whose tables put a new entry first and whose writes succeed. -/
def Env.plain : Env := ⟨.front _ _, .front _ _, fun _ => .front _ _, .front _ _, fun _ _ => true⟩

namespace Server

/-- The constructor `EtcdLiteServer()`. -/
def new (env : Env) : Server :=
  { kvStore := (KVStore.new env.data).setLeaseManager.setWatchCallback,
    leaseManager := (LeaseManager.new env.leases env.keys).setDeleteKeyCallback,
    watchManager := .new env.watchers,
    streams := fun sid => ⟨env.outcomes sid, []⟩ }

/-- The callback `putCallback_`. -/
def putCallback (s : Server) (key : Bytes) (kv : KeyValue) (prevKv : Option KeyValue) : Server :=
  { s with streams := s.watchManager.notifyPut key kv prevKv s.kvStore.currentRevision s.streams }

/-- The callback `deleteCallback_`. -/
def deleteCallback (s : Server) (key : Bytes) (kv : KeyValue) : Server :=
  { s with streams := s.watchManager.notifyDelete key kv s.kvStore.currentRevision s.streams }

/-- The server with its store's revision counter at a given value. -/
def setRevision (s : Server) (revision : Int) : Server :=
  { s with kvStore := { s.kvStore with revision := revision } }

/-! ### Put -/

/-- `KVStore::Put`. The output `prevKv` is a pointer, null or to a value that is
overwritten when the key existed. -/
def put (s : Server) (key value : Bytes) (lease : Int) (prevKv : Option KeyValue) :
    Option KeyValue × Server :=
  let newRevision := s.kvStore.revision + 1
  let old := s.kvStore.data.find? key
  let existed := old.isSome
  let prevKvCopy := (old.map KeyInfo.kv).getD {}
  let kv : KeyValue :=
    { key := key, value := value, lease := lease,
      createRevision := (old.map KeyInfo.createRevision).getD newRevision,
      modRevision := newRevision,
      version := (old.map fun info => info.version + 1).getD 1 }
  let info : KeyInfo :=
    { kv := kv, createRevision := kv.createRevision, modRevision := kv.modRevision,
      version := kv.version }
  let leaseManager :=
    if lease > 0 ∧ s.kvStore.leaseManager then
      let leaseManager :=
        if existed ∧ prevKvCopy.lease > 0 then (s.leaseManager.detachKey prevKvCopy.lease key).2
        else s.leaseManager
      (leaseManager.attachKey lease key).2
    else if existed ∧ prevKvCopy.lease > 0 ∧ s.kvStore.leaseManager then
      (s.leaseManager.detachKey prevKvCopy.lease key).2
    else s.leaseManager
  let s := { s with
    kvStore := { s.kvStore with revision := newRevision, data := s.kvStore.data.insert key info },
    leaseManager := leaseManager }
  let s :=
    if s.kvStore.putCallback then
      if existed then s.putCallback key kv (some prevKvCopy) else s.putCallback key kv none
    else s
  (prevKv.map fun p => if existed then prevKvCopy else p, s)

/-! ### Delete -/

/-- The loop that detaches the collected keys from their leases and erases them. It is
written out in `Delete` and again in `Txn`. -/
def detachAndErase (hasLeaseManager : Bool) (keyLeasePairs : List (Bytes × Int))
    (data : UnorderedMap Bytes KeyInfo) (leaseManager : LeaseManager) :
    UnorderedMap Bytes KeyInfo × LeaseManager :=
  keyLeasePairs.foldl (fun (data, leaseManager) (k, lease) =>
    (data.erase k,
      if lease > 0 ∧ hasLeaseManager then (leaseManager.detachKey lease k).2 else leaseManager))
    (data, leaseManager)

/-- The branch of `Delete` for an empty `rangeEnd`: the deleted key-values, when they are
asked for, and the new state. -/
def deleteSingle (s : Server) (key : Bytes) (prevKvs : Bool) : List KeyValue × Server :=
  match s.kvStore.data.find? key with
  | none => ([], s)
  | some info =>
    let deletedKvs := if prevKvs then [info.kv] else []
    let leaseManager :=
      if info.kv.lease > 0 ∧ s.kvStore.leaseManager then
        (s.leaseManager.detachKey info.kv.lease key).2
      else s.leaseManager
    (deletedKvs, { s with
      kvStore := { s.kvStore with data := s.kvStore.data.erase key },
      leaseManager := leaseManager })

/-- The branch of `Delete` for a range. -/
def deleteMany (s : Server) (key rangeEnd : Bytes) (prevKvs : Bool) : List KeyValue × Server :=
  let matched := s.kvStore.data.toList.filter fun e => keyInRange e.1 key rangeEnd
  let keyLeasePairs := matched.map fun e => (e.1, e.2.kv.lease)
  let deletedKvs := if prevKvs then matched.map fun e => e.2.kv else []
  let (data, leaseManager) :=
    detachAndErase s.kvStore.leaseManager keyLeasePairs s.kvStore.data s.leaseManager
  (deletedKvs, { s with
    kvStore := { s.kvStore with data := data }, leaseManager := leaseManager })

/-- `KVStore::Delete`. The output `prevKvs` is a pointer, null or not. The callback is
called for the key-values that were collected for the output. -/
def delete (s : Server) (key rangeEnd : Bytes) (prevKvs : Bool) : Option (List KeyValue) × Server :=
  let newRevision := s.kvStore.revision + 1
  let s := s.setRevision newRevision
  let (deletedKvs, s) :=
    if rangeEnd.isEmpty then s.deleteSingle key prevKvs else s.deleteMany key rangeEnd prevKvs
  let s :=
    if s.kvStore.deleteCallback then
      deletedKvs.foldl (fun s kv => s.deleteCallback kv.key kv) s
    else s
  (if prevKvs then some deletedKvs else none, s)

/-! ### Txn -/

/-- The put branch of the loop of `Txn`. -/
def txnPut (s : Server) (newRevision : Int) (putReq : PutRequest) : PutResponse × Server :=
  let old := s.kvStore.data.find? putReq.key
  let existed := old.isSome
  let prevKv := (old.map KeyInfo.kv).getD {}
  let kv : KeyValue :=
    { key := putReq.key, value := putReq.value, lease := putReq.lease,
      createRevision := (old.map KeyInfo.createRevision).getD newRevision,
      modRevision := newRevision,
      version := (old.map fun info => info.version + 1).getD 1 }
  let info : KeyInfo :=
    { kv := kv, createRevision := kv.createRevision, modRevision := kv.modRevision,
      version := kv.version }
  let leaseManager :=
    if putReq.lease > 0 ∧ s.kvStore.leaseManager then
      let leaseManager :=
        if existed ∧ prevKv.lease > 0 then (s.leaseManager.detachKey prevKv.lease putReq.key).2
        else s.leaseManager
      (leaseManager.attachKey putReq.lease putReq.key).2
    else if existed ∧ prevKv.lease > 0 ∧ s.kvStore.leaseManager then
      (s.leaseManager.detachKey prevKv.lease putReq.key).2
    else s.leaseManager
  ({ prevKv := if putReq.prevKv then some prevKv else none },
    { s with
      kvStore := { s.kvStore with data := s.kvStore.data.insert putReq.key info },
      leaseManager := leaseManager })

/-- The delete branch of the loop of `Txn`. -/
def txnDeleteRange (s : Server) (delReq : DeleteRangeRequest) : DeleteRangeResponse × Server :=
  let matched := s.kvStore.data.toList.filter fun e => keyInRange e.1 delReq.key delReq.rangeEnd
  let keysToDelete := matched.map Prod.fst
  let keyLeasePairs := matched.map fun e => (e.1, e.2.kv.lease)
  let deletedKvs := if delReq.prevKv then matched.map fun e => e.2.kv else []
  let (data, leaseManager) :=
    detachAndErase s.kvStore.leaseManager keyLeasePairs s.kvStore.data s.leaseManager
  ({ deleted := keysToDelete.length, prevKvs := if delReq.prevKv then deletedKvs else [] },
    { s with kvStore := { s.kvStore with data := data }, leaseManager := leaseManager })

/-- The range branch of the loop of `Txn`. -/
def txnRange (s : Server) (rangeReq : RangeRequest) : RangeResponse :=
  let kvs := s.kvStore.rangeInternal rangeReq.key rangeReq.rangeEnd rangeReq.limit
    rangeReq.countOnly rangeReq.keysOnly
  { kvs := kvs, count := kvs.length, more := false }

/-- The body of the loop of `Txn`: there is no branch for a nested transaction. -/
def txnOp (s : Server) (newRevision : Int) (op : RequestOp) : ResponseOp × Server :=
  match op with
  | .requestPut putReq =>
    let (resp, s) := s.txnPut newRevision putReq
    (.responsePut resp, s)
  | .requestDeleteRange delReq =>
    let (resp, s) := s.txnDeleteRange delReq
    (.responseDeleteRange resp, s)
  | .requestRange rangeReq => (.responseRange (s.txnRange rangeReq), s)
  | .requestTxn _ _ _ => (.notSet, s)
  | .notSet => (.notSet, s)

/-- The loop of `Txn` over the chosen operations. -/
def txnOps (s : Server) (newRevision : Int) : List RequestOp → List ResponseOp × Server
  | [] => ([], s)
  | op :: ops =>
    let (resp, s) := s.txnOp newRevision op
    let (resps, s) := s.txnOps newRevision ops
    (resp :: resps, s)

/-- The operations `Txn` chooses. -/
def chosenOps (s : Server) (compares : List Compare) (success failure : List RequestOp) :
    List RequestOp :=
  if s.kvStore.evaluateCompares compares then success else failure

/-- `KVStore::Txn`. -/
def txn (s : Server) (compares : List Compare) (success failure : List RequestOp) :
    TxnResponse × Server :=
  let newRevision := s.kvStore.revision + 1
  let s := s.setRevision newRevision
  let compareResult := s.kvStore.evaluateCompares compares
  let ops := s.chosenOps compares success failure
  let (responses, s) := s.txnOps newRevision ops
  ({ header := some { clusterId := s.kvStore.clusterId, memberId := s.kvStore.memberId,
                      revision := newRevision, raftTerm := 1 },
     succeeded := compareResult, responses := responses }, s)

/-! ### Revocation -/

/-- The callback `deleteKeyCallback_`. -/
def deleteKeyCallback (s : Server) (key : Bytes) : Server := (s.delete key [] false).2

/-- `LeaseManager::Revoke`, run to completion. -/
def revoke (s : Server) (leaseId : Int) : Status × Server :=
  match s.leaseManager.getLeaseKeys leaseId with
  | .error rc => (rc, s)
  | .ok keys =>
    let s := if s.leaseManager.deleteKeyCallback then keys.foldl deleteKeyCallback s else s
    (.OK, { s with leaseManager := s.leaseManager.erase leaseId })

/-- `LeaseManager::CheckExpiration`, run to completion. -/
def checkExpiration (s : Server) (now : Int) : Server :=
  (s.leaseManager.expiredLeases now).foldl (fun s leaseId => (s.revoke leaseId).2) s

/-- `LeaseManager::Grant`. -/
def grant (s : Server) (now ttl : Int) : Server :=
  { s with leaseManager := (s.leaseManager.grant now ttl).2.2 }

/-- `LeaseManager::KeepAlive`. -/
def keepAlive (s : Server) (now leaseId : Int) : Server :=
  match s.leaseManager.keepAlive now leaseId with
  | .error _ => s
  | .ok (_, leaseManager) => { s with leaseManager := leaseManager }

/-! ### Watches -/

/-- `WatchManager::RegisterWatcher`, as the watch service calls it: with the store. -/
def registerWatcher (s : Server) (req : WatchCreateRequest) (stream : Option StreamId) :
    Status × Int × Server :=
  let (rc, watchId, watchManager, streams) :=
    s.watchManager.registerWatcher req stream (some s.kvStore) s.streams
  (rc, watchId, { s with watchManager := watchManager, streams := streams })

/-- `WatchManager::CancelWatcher`. -/
def cancelWatcher (s : Server) (watchId : Int) : Status × Server :=
  let (rc, watchManager, streams) := s.watchManager.cancelWatcher watchId s.streams
  (rc, { s with watchManager := watchManager, streams := streams })

end Server

end EtcdLite
