import EtcdLite.Model.Server

/-!
# The lease service

The handlers of `LeaseServiceImpl` (`lease_service_impl.cpp`). A handler that reads the clock takes
the reading as `now`. `LeaseKeepAlive` has a stream of its own: it reads the requests of its client one
after another, and returns when there are no more, when a keep-alive fails, or when a response
is not taken. Here its requests come one straight after the other; `EtcdLite.Lease.KeepAlives` takes
them among the calls of other clients.
-/

namespace EtcdLite

/-! ### Messages -/

/-- `LeaseGrantRequest`, of which the server reads this field. -/
structure LeaseGrantRequest where
  ttl : Int := 0
  deriving DecidableEq, Repr

/-- `LeaseGrantResponse`, of which the server writes these fields. -/
structure LeaseGrantResponse where
  header : Option ResponseHeader := none
  id : Int := 0
  ttl : Int := 0
  deriving DecidableEq, Repr

/-- `LeaseRevokeRequest`. -/
structure LeaseRevokeRequest where
  id : Int := 0
  deriving DecidableEq, Repr

/-- `LeaseRevokeResponse`. -/
structure LeaseRevokeResponse where
  header : Option ResponseHeader := none
  deriving DecidableEq, Repr

/-- `LeaseKeepAliveRequest`. -/
structure LeaseKeepAliveRequest where
  id : Int := 0
  deriving DecidableEq, Repr

/-- `LeaseKeepAliveResponse`. -/
structure LeaseKeepAliveResponse where
  header : Option ResponseHeader := none
  id : Int := 0
  ttl : Int := 0
  deriving DecidableEq, Repr

/-- `LeaseTimeToLiveRequest`. -/
structure LeaseTimeToLiveRequest where
  id : Int := 0
  keys : Bool := false
  deriving DecidableEq, Repr

/-- `LeaseTimeToLiveResponse`, of which the server writes these fields. -/
structure LeaseTimeToLiveResponse where
  header : Option ResponseHeader := none
  id : Int := 0
  ttl : Int := 0
  keys : List Bytes := []
  deriving DecidableEq, Repr

/-- The stream of a `LeaseKeepAlive`: whether its next write will succeed, the one after, ..., and
what has been written to it. -/
structure KeepAliveStream where
  /-- Whether each write from now on will succeed. -/
  outcomes : ℕ → Bool
  /-- The responses written, in order. -/
  written : List LeaseKeepAliveResponse

/-- `stream->Write(resp)`. -/
def KeepAliveStream.write (st : KeepAliveStream) (resp : LeaseKeepAliveResponse) :
    Bool × KeepAliveStream :=
  (st.outcomes 0,
    { outcomes := fun n => st.outcomes (n + 1),
      written := if st.outcomes 0 then st.written ++ [resp] else st.written })

namespace LeaseService

open Server

/-- `FillResponseHeader`. -/
def responseHeader (s : Server) : ResponseHeader :=
  { clusterId := s.kvStore.clusterId, memberId := s.kvStore.memberId,
    revision := s.kvStore.currentRevision, raftTerm := 1 }

/-- What a handler makes of a status that is an error. -/
def internalError (status : Status) : Status := ⟨.internal, status.message⟩

/-- `LeaseGrant`. The status of `Grant` is `OK` always, and is left out. -/
def leaseGrant (s : Server) (now : Int) (request : LeaseGrantRequest) :
    LeaseGrantResponse × Server :=
  let (leaseId, actualTtl, leaseManager) := s.leaseManager.grant now request.ttl
  let s := { s with leaseManager := leaseManager }
  ({ header := some (responseHeader s), id := leaseId, ttl := actualTtl }, s)

/-- `LeaseRevoke`. -/
def leaseRevoke (s : Server) (request : LeaseRevokeRequest) :
    Except Status LeaseRevokeResponse × Server :=
  let (status, s) := s.revoke request.id
  if status.isError then (.error (internalError status), s)
  else (.ok { header := some (responseHeader s) }, s)

/-- `LeaseTimeToLive`. -/
def leaseTimeToLive (s : Server) (now : Int) (request : LeaseTimeToLiveRequest) :
    Except Status LeaseTimeToLiveResponse :=
  match s.leaseManager.timeToLive now request.id (if request.keys then some [] else none) with
  | .error status => .error (internalError status)
  | .ok (ttl, keys) =>
    .ok { header := some (responseHeader s), id := request.id, ttl := ttl,
          keys := if request.keys then keys.getD [] else [] }

/-- The body of the loop of `LeaseKeepAlive`: the status it returns, if it does, and the new
state. -/
def serveKeepAlive (s : Server) (stream : KeepAliveStream) (now : Int)
    (req : LeaseKeepAliveRequest) : Option Status × Server × KeepAliveStream :=
  match s.leaseManager.keepAlive now req.id with
  | .error status => (some (internalError status), s, stream)
  | .ok (ttl, leaseManager) =>
    let s := { s with leaseManager := leaseManager }
    let (ok, stream) :=
      stream.write { header := some (responseHeader s), id := req.id, ttl := ttl }
    (if ok then none else some .OK, s, stream)

/-- `LeaseKeepAlive`, when these are the requests it reads, each with the reading of the clock
that its keep-alive takes. -/
def leaseKeepAlive (s : Server) (stream : KeepAliveStream) :
    List (Int × LeaseKeepAliveRequest) → Status × Server × KeepAliveStream
  | [] => (.OK, s, stream)
  | (now, req) :: reqs =>
    match serveKeepAlive s stream now req with
    | (some status, s, stream) => (status, s, stream)
    | (none, s, stream) => leaseKeepAlive s stream reqs

end LeaseService

end EtcdLite
