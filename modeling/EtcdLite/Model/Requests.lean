import EtcdLite.Model.LeaseService
import EtcdLite.Model.MaintenanceService
import EtcdLite.Model.WatchService

/-!
# Requests

The requests of clients, to any of the services, each handled from beginning to end
(`Server.serve`). A keep-alive is one request on its stream, the write of its response succeeding.
So is a request on a watch stream, whatever becomes of its writes; but these, and the status of the
handler when a registration fails, are not answers here (`EtcdLite.Model.WatchService` has them).
The expiration thread is here as a request, too: it runs `CheckExpiration`, and no one is answered.
-/

namespace EtcdLite

open Server

/-- A request, with the reading of the clock that its handler takes. -/
inductive Request where
  | put (r : PutRequest)
  | range (r : RangeRequest)
  | deleteRange (r : DeleteRangeRequest)
  | txn (r : TxnRequest)
  | compact (r : CompactionRequest)
  | leaseGrant (now : Int) (r : LeaseGrantRequest)
  | leaseKeepAlive (now : Int) (r : LeaseKeepAliveRequest)
  | leaseRevoke (r : LeaseRevokeRequest)
  | leaseTimeToLive (now : Int) (r : LeaseTimeToLiveRequest)
  | status
  | watch (sid : StreamId) (r : WatchRequest)
  | checkExpiration (now : Int)

/-- A response, or the status of a handler that fails. -/
inductive Response where
  | put (r : PutResponse)
  | range (r : RangeResponse)
  | deleteRange (r : DeleteRangeResponse)
  | txn (r : TxnResponse)
  | compact (r : CompactionResponse)
  | leaseGrant (r : LeaseGrantResponse)
  | leaseKeepAlive (r : LeaseKeepAliveResponse)
  | leaseRevoke (r : LeaseRevokeResponse)
  | leaseTimeToLive (r : LeaseTimeToLiveResponse)
  | status (r : StatusResponse)
  | failed (status : Status)
  | none

/-- The response of a keep-alive, by the status that ends the stream, if one does, and what has
been written to it. -/
def Response.ofKeepAlive (status : Option Status) (stream : KeepAliveStream) : Response :=
  match status, stream.written with
  | some status, _ => .failed status
  | Option.none, resp :: _ => .leaseKeepAlive resp
  | Option.none, [] => .none

/-- Handling a request. -/
def Server.serve (s : Server) : Request → Response × Server
  | .put r => let (resp, s) := KVService.put s r; (.put resp, s)
  | .range r => (.range (KVService.range s r), s)
  | .deleteRange r => let (resp, s) := KVService.deleteRange s r; (.deleteRange resp, s)
  | .txn r => let (resp, s) := KVService.txn s r; (.txn resp, s)
  | .compact r => (.compact (KVService.compact s r), s)
  | .leaseGrant now r => let (resp, s) := LeaseService.leaseGrant s now r; (.leaseGrant resp, s)
  | .leaseKeepAlive now r =>
    let (status, s, stream) := LeaseService.serveKeepAlive s ⟨fun _ => true, []⟩ now r
    (.ofKeepAlive status stream, s)
  | .leaseRevoke r =>
    match LeaseService.leaseRevoke s r with
    | (.error status, s) => (.failed status, s)
    | (.ok resp, s) => (.leaseRevoke resp, s)
  | .leaseTimeToLive now r =>
    match LeaseService.leaseTimeToLive s now r with
    | .error status => (.failed status, s)
    | .ok resp => (.leaseTimeToLive resp, s)
  | .status => (.status (MaintenanceService.status s.kvStore s.kvStore), s)
  | .watch sid r => (.none, (WatchService.serve s sid r).2)
  | .checkExpiration now => (.none, s.checkExpiration now)

end EtcdLite
