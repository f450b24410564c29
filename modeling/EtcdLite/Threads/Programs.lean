import EtcdLite.Lib.Locks
import EtcdLite.Watch.System

/-!
# The operations as programs of threads

Each public operation of `KVStore`, `LeaseManager` and `WatchManager`, and the body of the loop
of `WatchServiceImpl::Watch`, as the program of a thread (`Op.program`): the locks it takes and
releases, and what it does in between (`Act.run`). The callbacks that `EtcdLiteServer` wires up
are followed: a put calls the lease manager, and the watch manager, with the lock of the store
held; a revocation calls the store.

A write to a stream has a start and an end, and other threads step in between. An operation that
reads the data under a lock, and goes on by what it has read after releasing it, releases it in
what its action puts in front of the rest. Reads of an atomic take no lock. An operation that only
reads, and a query in a transaction, hands out what it has read; what others return is left out.
-/

namespace EtcdLite.Threads

open Server WatchManager WatchSystem

/-- The mutexes. -/
inductive Mutex where
  /-- `KVStore::mutex_`. -/
  | store
  /-- `LeaseManager::mutex_`. -/
  | lease
  /-- `WatchManager::mutex_`. -/
  | watch
  /-- `Watcher::streamMutex_`. -/
  | stream (watchId : Int)
  deriving DecidableEq, Repr

/-- Whose write to a stream it is. -/
inductive Writer where
  /-- `NotifyPut`, `NotifyDelete` or `CancelWatcher`, to a watcher in the registry. -/
  | notice (w : Watcher)
  /-- `RegisterWatcher`, that the watcher is created; the handler of the stream may have called it. -/
  | created (w : Watcher) (handler : Bool)
  /-- `SendHistoricalEvents`. -/
  | historical (w : Watcher)
  /-- The handler, that a registration has failed. -/
  | refusal
  deriving DecidableEq, Repr

/-- An operation that only reads, under the lock of its component. -/
inductive Read where
  | get (key : Bytes)
  | range (start endKey : Bytes) (limit : Int) (countOnly keysOnly : Bool)
  | keyExists (key : Bytes)
  | timeToLive (now leaseId : Int) (keys : Option (List Bytes))
  | getLeaseKeys (leaseId : Int)
  | leaseExists (leaseId : Int)
  | getLeaseTTL (now leaseId : Int)

/-- The lock that it takes. -/
def Read.mutex : Read → Mutex
  | .get _ | .range _ _ _ _ _ | .keyExists _ => .store
  | .timeToLive _ _ _ | .getLeaseKeys _ | .leaseExists _ | .getLeaseTTL _ _ => .lease

theorem Read.mutex_ne_watch (r : Read) : r.mutex ≠ .watch := by cases r <;> simp [mutex]

/-- What it hands out. -/
inductive Answer where
  | kv (r : Except Status KeyValue)
  | kvs (kvs : List KeyValue)
  | bool (b : Bool)
  | ttlKeys (r : Except Status (Int × Option (List Bytes)))
  | keys (r : Except Status (List Bytes))
  | ttl (ttl : Int)

/-- What it reads. -/
def Read.answer (s : Server) : Read → Answer
  | .get key => .kv (s.kvStore.get key)
  | .range start endKey limit countOnly keysOnly =>
    .kvs (s.kvStore.range start endKey limit countOnly keysOnly)
  | .keyExists key => .bool (s.kvStore.keyExists key)
  | .timeToLive now leaseId keys => .ttlKeys (s.leaseManager.timeToLive now leaseId keys)
  | .getLeaseKeys leaseId => .keys (s.leaseManager.getLeaseKeys leaseId)
  | .leaseExists leaseId => .bool (s.leaseManager.leaseExists leaseId)
  | .getLeaseTTL now leaseId => .ttl (s.leaseManager.getLeaseTTL now leaseId)

/-- What a thread does between taking and releasing locks. -/
inductive Act where
  /-- `Put`, until it calls the lease manager. -/
  | put (key value : Bytes) (lease : Int)
  /-- `data_[key] = info`. -/
  | insert (key : Bytes) (info : KeyInfo)
  /-- `putCallback_`. -/
  | putCallback (key : Bytes) (kv : KeyValue) (prevKv : Option KeyValue)
  /-- `Delete`, until it calls the lease manager. -/
  | delete (key rangeEnd : Bytes) (prevKvs : Bool)
  /-- `data_.erase(key)`. -/
  | erase (key : Bytes)
  /-- `deleteCallback_`. -/
  | deleteCallback (kv : KeyValue)
  /-- `Txn`, until its loop. -/
  | txn (compares : List Compare) (success failure : List RequestOp)
  /-- The body of the loop of `Txn`, until it calls the lease manager. -/
  | txnOp (newRevision : Int) (op : RequestOp)
  /-- The body of an operation that only reads. -/
  | read (r : Read)
  /-- Its output. -/
  | answer (answer : Answer)
  | grant (now ttl : Int)
  | keepAlive (now leaseId : Int)
  | attachKey (leaseId : Int) (key : Bytes)
  | detachKey (leaseId : Int) (key : Bytes)
  /-- `GetLeaseKeys`, as `Revoke` calls it. -/
  | getLeaseKeys (leaseId : Int)
  /-- `leases_.erase(leaseId)`. -/
  | eraseLease (leaseId : Int)
  /-- The loop of `CheckExpiration` that collects the expired leases. -/
  | expiredLeases (now : Int)
  /-- `NotifyPut`, under the lock. -/
  | notifyPut (key : Bytes) (kv : KeyValue) (prevKv : Option KeyValue) (revision : Int)
  /-- `NotifyDelete`, under the lock. -/
  | notifyDelete (key : Bytes) (kv : KeyValue) (revision : Int)
  /-- `CancelWatcher`, under the lock. -/
  | cancelWatcher (watchId : Int)
  /-- `watchers_.erase(it)`. -/
  | eraseWatcher (watchId : Int)
  /-- `RegisterWatcher`, until it reads the revision. -/
  | takeId (req : WatchCreateRequest) (stream : Option StreamId) (handler : Bool)
  /-- The revision for the created response. -/
  | readRevision (w : Watcher) (handler : Bool)
  /-- The `Range` of `SendHistoricalEvents`. -/
  | readHistory (w : Watcher)
  /-- `watchers_[*watchId] = watcher`. -/
  | insertWatcher (w : Watcher)
  /-- A write to a stream begins. -/
  | write (sid : StreamId) (response : WatchResponse) (writer : Writer)
  /-- It ends. -/
  | writing (sid : StreamId) (response : WatchResponse) (writer : Writer)
  /-- The handler fills the response that says a registration has failed. -/
  | refuse (sid : StreamId) (watchId : Int)

/-- An instruction of a thread of the server. -/
abbrev Instr := Locks.Instr Mutex Act

/-- An action under a lock. -/
def locked (m : Mutex) (a : Act) : List Instr := [.lock m, .act a, .unlock m]

/-! ### Calls of the store to the lease manager -/

/-- What `Put`, and the put branch of `Txn`, call. -/
def relinkCalls (hasLeaseManager : Bool) (old : Option KeyInfo) (key : Bytes) (lease : Int) :
    List Instr :=
  let existed := old.isSome
  let prevKv := (old.map KeyInfo.kv).getD {}
  if lease > 0 ∧ hasLeaseManager then
    (if existed ∧ prevKv.lease > 0 then locked .lease (.detachKey prevKv.lease key) else []) ++
      locked .lease (.attachKey lease key)
  else if existed ∧ prevKv.lease > 0 ∧ hasLeaseManager then
    locked .lease (.detachKey prevKv.lease key)
  else []

/-- The loop that detaches the collected keys and erases them. -/
def detachAndEraseCalls (hasLeaseManager : Bool) (keyLeasePairs : List (Bytes × Int)) : List Instr :=
  keyLeasePairs.flatMap fun (k, lease) =>
    (if lease > 0 ∧ hasLeaseManager then locked .lease (.detachKey lease k) else []) ++
      [.act (.erase k)]

/-! ### Calls of the store to the watch manager -/

/-- The call of `Put`, if there is a callback. -/
def putCallbackCall (hasPutCallback : Bool) (key : Bytes) (kv : KeyValue) (prevKv : Option KeyValue) :
    List Instr :=
  if hasPutCallback then [.act (.putCallback key kv prevKv)] else []

/-- The loop of `Delete` over the key-values that were collected, if there is a callback. -/
def deleteCallbackCalls (hasDeleteCallback : Bool) (deletedKvs : List KeyValue) : List Instr :=
  if hasDeleteCallback then deletedKvs.map fun kv => .act (.deleteCallback kv) else []

/-! ### Writes to streams -/

/-- The end of `RegisterWatcher`. -/
def insertCall (w : Watcher) : List Instr := locked .watch (.insertWatcher w)

/-- `SendHistoricalEvents`, if the request asks for it, and then the insertion. -/
def Writer.historyCall (w : Watcher) : List Instr :=
  if w.startRevision > 0 then [.lock .store, .act (.readHistory w)] else insertCall w

/-- What follows `SendWatchResponse`, given what it returns. -/
def Writer.next (ok : Bool) : Writer → List Instr
  | .notice _ | .historical _ | .refusal => []
  | .created w handler =>
    if ok then Writer.historyCall w
    else if handler then w.stream.toList.map fun sid => .act (.refuse sid w.watchId)
    else []

/-- The end of the scope of `lock_guard`. The handler takes no lock. -/
def Writer.release : Writer → List Instr
  | .notice w | .created w _ | .historical w => [.unlock (.stream w.watchId)]
  | .refusal => []

/-- `SendWatchResponse`, and what follows it. Without a stream it takes no lock. -/
def sendCall (w : Watcher) (response : WatchResponse) (writer : Writer) : List Instr :=
  match w.stream with
  | none => writer.next true
  | some sid => [.lock (.stream w.watchId), .act (.write sid response writer)]

/-- The loop of `NotifyPut` and `NotifyDelete` over the registry. -/
def notifyCalls (wm : WatchManager) (key : Bytes) (response : Watcher → WatchResponse) : List Instr :=
  (wm.notices key response).flatMap fun e => sendCall e.1 e.2 (.notice e.1)

/-! ### What the actions do -/

/-- The operations of the data, and what follows: calls, branches and loops over what is read. -/
def Act.run : Act → Server → Server × List Instr
  | .put key value lease, s =>
    let newRevision := s.kvStore.revision + 1
    let old := s.kvStore.data.find? key
    let info := putInfo old key value lease newRevision
    (s.setRevision newRevision,
      relinkCalls s.kvStore.leaseManager old key lease ++ .act (.insert key info) ::
        putCallbackCall s.kvStore.putCallback key info.kv (old.map KeyInfo.kv))
  | .insert key info, s =>
    ({ s with kvStore := { s.kvStore with data := s.kvStore.data.insert key info } }, [])
  | .putCallback key kv prevKv, s =>
    (s, locked .watch (.notifyPut key kv prevKv s.kvStore.currentRevision))
  | .delete key rangeEnd prevKvs, s =>
    let matched :=
      if rangeEnd.isEmpty then (s.kvStore.data.find? key).toList.map fun info => (key, info)
      else s.kvStore.data.toList.filter fun e => keyInRange e.1 key rangeEnd
    (s.setRevision (s.kvStore.revision + 1),
      detachAndEraseCalls s.kvStore.leaseManager (matched.map fun e => (e.1, e.2.kv.lease)) ++
        deleteCallbackCalls s.kvStore.deleteCallback
          (if prevKvs then matched.map fun e => e.2.kv else []))
  | .erase key, s =>
    ({ s with kvStore := { s.kvStore with data := s.kvStore.data.erase key } }, [])
  | .deleteCallback kv, s =>
    (s, locked .watch (.notifyDelete kv.key kv s.kvStore.currentRevision))
  | .txn compares success failure, s =>
    let newRevision := s.kvStore.revision + 1
    (s.setRevision newRevision,
      (s.chosenOps compares success failure).map fun op => .act (.txnOp newRevision op))
  | .txnOp newRevision (.requestPut r), s =>
    let old := s.kvStore.data.find? r.key
    (s, relinkCalls s.kvStore.leaseManager old r.key r.lease ++
      [.act (.insert r.key (putInfo old r.key r.value r.lease newRevision))])
  | .txnOp _ (.requestDeleteRange r), s =>
    let matched := s.kvStore.data.toList.filter fun e => keyInRange e.1 r.key r.rangeEnd
    (s, detachAndEraseCalls s.kvStore.leaseManager (matched.map fun e => (e.1, e.2.kv.lease)))
  | .txnOp _ (.requestRange r), s => (s, [.act (.answer (.kvs (s.txnRange r).kvs))])
  | .txnOp _ (.requestTxn _ _ _), s | .txnOp _ .notSet, s => (s, [])
  | .read r, s => (s, [.act (.answer (r.answer s))])
  | .answer _, s => (s, [])
  | .grant now ttl, s => (s.grant now ttl, [])
  | .keepAlive now leaseId, s => (s.keepAlive now leaseId, [])
  | .attachKey leaseId key, s =>
    ({ s with leaseManager := (s.leaseManager.attachKey leaseId key).2 }, [])
  | .detachKey leaseId key, s =>
    ({ s with leaseManager := (s.leaseManager.detachKey leaseId key).2 }, [])
  | .getLeaseKeys leaseId, s =>
    (s, .unlock .lease ::
      match s.leaseManager.getLeaseKeys leaseId with
      | .error _ => []
      | .ok keys =>
        (if s.leaseManager.deleteKeyCallback then
          keys.flatMap fun key => locked .store (.delete key [] false)
        else []) ++ locked .lease (.eraseLease leaseId))
  | .eraseLease leaseId, s => ({ s with leaseManager := s.leaseManager.erase leaseId }, [])
  | .expiredLeases now, s =>
    (s, .unlock .lease ::
      (s.leaseManager.expiredLeases now).flatMap fun leaseId =>
        [.lock .lease, .act (.getLeaseKeys leaseId)])
  | .notifyPut key kv prevKv revision, s =>
    (s, notifyCalls s.watchManager key fun w => putResponse w kv prevKv revision)
  | .notifyDelete key kv revision, s =>
    (s, notifyCalls s.watchManager key fun w => deleteResponse w kv revision)
  | .cancelWatcher watchId, s =>
    match s.watchManager.watchers.find? watchId with
    | none => (s, [])
    | some w =>
      (s, sendCall w (canceledResponse s watchId) (.notice w) ++ [.act (.eraseWatcher watchId)])
  | .eraseWatcher watchId, s => (WatchSystem.eraseWatcher s watchId, [])
  | .takeId req stream handler, s =>
    (WatchSystem.takeId s, [.act (.readRevision (s.watchManager.makeWatcher req stream) handler)])
  | .readRevision w handler, s =>
    (s, sendCall w (createdAt w s.kvStore.currentRevision) (.created w handler))
  | .readHistory w, s =>
    (s, .unlock .store ::
      ((s.kvStore.range w.key w.rangeEnd 0 false false).flatMap fun kv =>
        sendCall w (historicalResponse w kv) (.historical w)) ++ insertCall w)
  | .insertWatcher w, s => (WatchSystem.insertWatcher s w, [])
  | .write sid response writer, s => (s, [.act (.writing sid response writer)])
  | .writing sid response writer, s =>
    let (ok, st) := (s.streams sid).write response
    ({ s with streams := Function.update s.streams sid st }, writer.release ++ writer.next ok)
  | .refuse sid watchId, s =>
    (s, [.act (.write sid (WatchService.failedResponse watchId (WatchService.responseHeader s))
      .refusal)])

/-! ### The operations -/

/-- The public operations. The clock readings are those the operation takes. -/
inductive Op where
  | put (key value : Bytes) (lease : Int)
  | delete (key rangeEnd : Bytes) (prevKvs : Bool)
  | txn (compares : List Compare) (success failure : List RequestOp)
  | read (r : Read)
  | grant (now ttl : Int)
  | revoke (leaseId : Int)
  | keepAlive (now leaseId : Int)
  | attachKey (leaseId : Int) (key : Bytes)
  | detachKey (leaseId : Int) (key : Bytes)
  | checkExpiration (now : Int)
  | registerWatcher (req : WatchCreateRequest) (stream : Option StreamId)
  | cancelWatcher (watchId : Int)
  | notifyPut (key : Bytes) (kv : KeyValue) (prevKv : Option KeyValue) (revision : Int)
  | notifyDelete (key : Bytes) (kv : KeyValue) (revision : Int)
  /-- The body of the loop of `Watch`, for the handler of a stream. -/
  | serve (sid : StreamId) (req : WatchRequest)

/-- What a thread does to run an operation. -/
def Op.program : Op → List Instr
  | .put key value lease => locked .store (.put key value lease)
  | .delete key rangeEnd prevKvs => locked .store (.delete key rangeEnd prevKvs)
  | .txn compares success failure => locked .store (.txn compares success failure)
  | .read r => locked r.mutex (.read r)
  | .grant now ttl => locked .lease (.grant now ttl)
  | .revoke leaseId => [.lock .lease, .act (.getLeaseKeys leaseId)]
  | .keepAlive now leaseId => locked .lease (.keepAlive now leaseId)
  | .attachKey leaseId key => locked .lease (.attachKey leaseId key)
  | .detachKey leaseId key => locked .lease (.detachKey leaseId key)
  | .checkExpiration now => [.lock .lease, .act (.expiredLeases now)]
  | .registerWatcher req stream => [.act (.takeId req stream false)]
  | .cancelWatcher watchId => locked .watch (.cancelWatcher watchId)
  | .notifyPut key kv prevKv revision => locked .watch (.notifyPut key kv prevKv revision)
  | .notifyDelete key kv revision => locked .watch (.notifyDelete key kv revision)
  | .serve sid (.createRequest req) => [.act (.takeId req (some sid) true)]
  | .serve _ (.cancelRequest watchId) => locked .watch (.cancelWatcher watchId)
  | .serve _ .progressRequest | .serve _ .notSet => []

/-- The server, as a system of threads that take locks. -/
def system : Locks.System Mutex Act Server Op := { run := Act.run, program := Op.program }

/-- Any number of threads, none of them in an operation yet, on a new server. -/
abbrev start (T : Type) (env : Env) : Locks.State T Mutex Act Server :=
  Locks.idle T Mutex Act (.new env)

end EtcdLite.Threads
