import EtcdLite.Model.KVStore
import Mathlib.Logic.Function.Basic

/-!
# The watch manager

`WatchManager` (`watch_manager.cpp`): the registry of watchers, the notifications
the store's callbacks lead to, registration with its historical events, and
cancellation. A stream is gRPC's: all the server sees of it is whether each of its
writes succeeds, and what has been written. Which writes will succeed is part of
the stream, so that a statement about every stream is one about every outcome.
-/

namespace EtcdLite

/-! ### Messages -/

/-- `mvccpb::Event::EventType`. -/
inductive EventType where
  | PUT | DELETE
  deriving DecidableEq, Repr

/-- `mvccpb::Event`. -/
structure Event where
  type : EventType := .PUT
  kv : KeyValue := {}
  prevKv : Option KeyValue := none
  deriving DecidableEq, Repr

/-- `WatchCreateRequest`, of which the server reads these fields. -/
structure WatchCreateRequest where
  key : Bytes := []
  rangeEnd : Bytes := []
  startRevision : Int := 0
  prevKv : Bool := false
  deriving DecidableEq, Repr

/-- `WatchResponse`, of which the server writes these fields. -/
structure WatchResponse where
  header : ResponseHeader := {}
  watchId : Int := 0
  created : Bool := false
  canceled : Bool := false
  events : List Event := []
  deriving DecidableEq, Repr

/-! ### Streams -/

/-- A response stream: whether its next write will succeed, the one after, ..., and what
has been written to it. -/
structure Stream where
  /-- Whether each write from now on will succeed. -/
  outcomes : ℕ → Bool
  /-- The responses written, in order. -/
  written : List WatchResponse

/-- `stream->Write(response)`. -/
def Stream.write (st : Stream) (response : WatchResponse) : Bool × Stream :=
  (st.outcomes 0,
    { outcomes := fun n => st.outcomes (n + 1),
      written := if st.outcomes 0 then st.written ++ [response] else st.written })

/-- A stream pointer. -/
abbrev StreamId := ℕ

/-- The streams there are. -/
abbrev Streams := StreamId → Stream

/-! ### The registry -/

/-- `WatchManager::Watcher`. -/
structure Watcher where
  watchId : Int
  key : Bytes
  rangeEnd : Bytes
  startRevision : Int
  prevKv : Bool
  /-- The stream pointer, unless it is null. -/
  stream : Option StreamId
  active : Bool := true
  clusterId : ℕ
  memberId : ℕ
  deriving DecidableEq, Repr

/-- `WatchManager`. -/
structure WatchManager where
  /-- `watchers_`. -/
  watchers : UnorderedMap Int Watcher
  /-- `nextWatchId_`. -/
  nextWatchId : Int
  /-- `clusterId_`. -/
  clusterId : ℕ
  /-- `memberId_`. -/
  memberId : ℕ

/-- `KeyMatchesWatcher`. -/
def keyMatchesWatcher (key : Bytes) (watcher : Watcher) : Bool :=
  if key < watcher.key then false
  else
    match watcher.rangeEnd with
    | [] => key = watcher.key
    | b :: _ => if b = 0 then key ≥ watcher.key else key < watcher.rangeEnd

/-- The two range predicates of the server select the same keys. -/
theorem keyMatchesWatcher_eq (k : Bytes) (w : Watcher) :
    keyMatchesWatcher k w = keyInRange k w.key w.rangeEnd := rfl

/-- `SendWatchResponse`: without a stream nothing is sent and it succeeds. -/
def sendWatchResponse (watcher : Watcher) (response : WatchResponse) (streams : Streams) :
    Bool × Streams :=
  match watcher.stream with
  | none => (true, streams)
  | some sid =>
    let (ok, st) := (streams sid).write response
    (ok, Function.update streams sid st)

namespace WatchManager

/-- A new watch manager, whose registry will have the given layout. -/
def new (l : Layout Int Watcher) : WatchManager :=
  { watchers := .empty l, nextWatchId := 1, clusterId := 1, memberId := 1 }

/-- The response header `NotifyPut`, `NotifyDelete` and `SendHistoricalEvents` fill. -/
def eventHeader (watcher : Watcher) (revision : Int) : ResponseHeader :=
  { clusterId := watcher.clusterId, memberId := watcher.memberId, revision := revision }

/-- The response `NotifyPut` sends to a watcher. -/
def putResponse (watcher : Watcher) (kv : KeyValue) (prevKv : Option KeyValue) (revision : Int) :
    WatchResponse :=
  { header := eventHeader watcher revision, watchId := watcher.watchId,
    events := [{ type := .PUT, kv := kv, prevKv := if watcher.prevKv then prevKv else none }] }

/-- The response `NotifyDelete` sends to a watcher. -/
def deleteResponse (watcher : Watcher) (kv : KeyValue) (revision : Int) : WatchResponse :=
  { header := eventHeader watcher revision, watchId := watcher.watchId,
    events := [{ type := .DELETE, kv := kv }] }

/-- The loop of `NotifyPut` and `NotifyDelete` over the registry: each active watcher the
key matches is sent its response. -/
def notify (wm : WatchManager) (key : Bytes) (response : Watcher → WatchResponse)
    (streams : Streams) : Streams :=
  wm.watchers.toList.foldl (fun streams e =>
    if !e.2.active then streams
    else if !keyMatchesWatcher key e.2 then streams
    else (sendWatchResponse e.2 (response e.2) streams).2) streams

/-- `NotifyPut`. -/
def notifyPut (wm : WatchManager) (key : Bytes) (kv : KeyValue) (prevKv : Option KeyValue)
    (revision : Int) (streams : Streams) : Streams :=
  wm.notify key (fun watcher => putResponse watcher kv prevKv revision) streams

/-- `NotifyDelete`. -/
def notifyDelete (wm : WatchManager) (key : Bytes) (kv : KeyValue) (revision : Int)
    (streams : Streams) : Streams :=
  wm.notify key (fun watcher => deleteResponse watcher kv revision) streams

/-- The response `SendHistoricalEvents` sends for a key. -/
def historicalResponse (watcher : Watcher) (kv : KeyValue) : WatchResponse :=
  { header := eventHeader watcher kv.modRevision, watchId := watcher.watchId,
    events := [{ type := .PUT, kv := kv }] }

/-- `SendHistoricalEvents`: every key of the range there is now, as a put. -/
def sendHistoricalEvents (watcher : Watcher) (kvStore : KVStore) (streams : Streams) : Streams :=
  (kvStore.range watcher.key watcher.rangeEnd 0 false false).foldl
    (fun streams kv => (sendWatchResponse watcher (historicalResponse watcher kv) streams).2) streams

/-- The watcher `RegisterWatcher` makes of a request. -/
def makeWatcher (wm : WatchManager) (req : WatchCreateRequest) (stream : Option StreamId) : Watcher :=
  { watchId := wm.nextWatchId, key := req.key, rangeEnd := req.rangeEnd,
    startRevision := req.startRevision, prevKv := req.prevKv, stream := stream,
    clusterId := wm.clusterId, memberId := wm.memberId }

/-- The response that says the watcher is created. -/
def createdResponse (watcher : Watcher) (kvStore : Option KVStore) : WatchResponse :=
  { header := eventHeader watcher ((kvStore.map KVStore.currentRevision).getD 0),
    watchId := watcher.watchId, created := true }

/-- `RegisterWatcher`: the status, the output `watchId`, and the new state. -/
def registerWatcher (wm : WatchManager) (req : WatchCreateRequest) (stream : Option StreamId)
    (kvStore : Option KVStore) (streams : Streams) : Status × Int × WatchManager × Streams :=
  let watcher := wm.makeWatcher req stream
  let watchId := watcher.watchId
  let wm := { wm with nextWatchId := wm.nextWatchId + 1 }
  let (ok, streams) := sendWatchResponse watcher (createdResponse watcher kvStore) streams
  if !ok then
    (⟨.internal, "Failed to send watch created response"⟩, watchId, wm, streams)
  else
    let streams :=
      match kvStore with
      | some kvStore =>
        if req.startRevision > 0 then sendHistoricalEvents watcher kvStore streams else streams
      | none => streams
    (.OK, watchId, { wm with watchers := wm.watchers.insert watchId watcher }, streams)

/-- `CancelWatcher`. -/
def cancelWatcher (wm : WatchManager) (watchId : Int) (streams : Streams) :
    Status × WatchManager × Streams :=
  match wm.watchers.find? watchId with
  | none => (⟨.notFound, "Watcher not found"⟩, wm, streams)
  | some watcher =>
    let response : WatchResponse :=
      { header := { clusterId := wm.clusterId, memberId := wm.memberId },
        watchId := watchId, canceled := true }
    let (_, streams) := sendWatchResponse watcher response streams
    (.OK, { wm with watchers := wm.watchers.erase watchId }, streams)

end WatchManager

end EtcdLite
