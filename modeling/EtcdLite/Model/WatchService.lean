import EtcdLite.Model.Server

/-!
# The watch service

The handler `WatchServiceImpl::Watch` (`watch_service_impl.cpp`). Each stream has a call of
it, which reads the requests of its client one after another, and returns when there are no
more or when a registration fails. Here a request is run to completion;
`EtcdLite.Watch.System` takes it a step at a time, among the handlers of other streams.
-/

namespace EtcdLite

/-- `WatchRequest`: its `oneof request_union`. -/
inductive WatchRequest where
  | notSet
  | createRequest (req : WatchCreateRequest)
  | cancelRequest (watchId : Int)
  | progressRequest
  deriving DecidableEq, Repr

namespace WatchService

/-- `FillResponseHeader`. -/
def responseHeader (s : Server) : ResponseHeader :=
  { clusterId := s.kvStore.clusterId, memberId := s.kvStore.memberId,
    revision := s.kvStore.currentRevision, raftTerm := 1 }

/-- The response that says a registration has failed. -/
def failedResponse (watchId : Int) (header : ResponseHeader) : WatchResponse :=
  { header := header, watchId := watchId, canceled := true }

/-- `stream->Write(response)`, whatever becomes of it. -/
def write (s : Server) (sid : StreamId) (response : WatchResponse) : Server :=
  { s with streams := Function.update s.streams sid ((s.streams sid).write response).2 }

/-- The body of the loop of `Watch`: the status it returns, if it does, and the new state. -/
def serve (s : Server) (sid : StreamId) : WatchRequest → Option Status × Server
  | .createRequest req =>
    let (status, watchId, s) := s.registerWatcher req (some sid)
    if status.isError then
      (some ⟨.internal, status.message⟩, write s sid (failedResponse watchId (responseHeader s)))
    else (none, s)
  | .cancelRequest watchId => (none, (s.cancelWatcher watchId).2)
  | .progressRequest | .notSet => (none, s)

/-- `Watch`, when these are the requests it reads. -/
def watch (s : Server) (sid : StreamId) : List WatchRequest → Status × Server
  | [] => (.OK, s)
  | req :: reqs =>
    match serve s sid req with
    | (some status, s) => (status, s)
    | (none, s) => watch s sid reqs

end WatchService

end EtcdLite
