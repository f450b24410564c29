import EtcdLite.Lease.RevokeEffect
import EtcdLite.Model.LeaseService

/-!
# Requests to the lease service

The handlers of the lease service as operations on the server: each request leaves it as a run of
`Grant`, `Revoke` and `KeepAlive` does (`handle_run`), so what every such run keeps, every request
keeps (`indexed_handle`). A handler that fails has found that a lease is not there, and leaves the
server as it was but for the keep-alives before (`handle_failed`).
-/

namespace EtcdLite

open Server

namespace LeaseService

/-- A request to the lease service, with the readings of the clock that its handler takes. -/
inductive Request where
  | grant (now : Int) (request : LeaseGrantRequest)
  | revoke (request : LeaseRevokeRequest)
  | timeToLive (now : Int) (request : LeaseTimeToLiveRequest)
  | keepAlive (stream : KeepAliveStream) (requests : List (Int × LeaseKeepAliveRequest))

/-- The status that a handler returns with a response. -/
def statusOf {α : Type} : Except Status α → Status
  | .error status => status
  | .ok _ => .OK

/-- The status that its handler returns, and the server it leaves. -/
def Request.handle (s : Server) : Request → Status × Server
  | .grant now request => (.OK, (leaseGrant s now request).2)
  | .revoke request => (statusOf (leaseRevoke s request).1, (leaseRevoke s request).2)
  | .timeToLive now request => (statusOf (leaseTimeToLive s now request), s)
  | .keepAlive stream requests =>
    ((leaseKeepAlive s stream requests).1, (leaseKeepAlive s stream requests).2.1)

/-! ### The server after a request -/

theorem leaseRevoke_snd (s : Server) (request : LeaseRevokeRequest) :
    (leaseRevoke s request).2 = (s.revoke request.id).2 := by
  dsimp only [leaseRevoke]
  split_ifs <;> rfl

theorem serveKeepAlive_server (s : Server) (stream : KeepAliveStream) (now : Int)
    (req : LeaseKeepAliveRequest) :
    (serveKeepAlive s stream now req).2.1 = s.keepAlive now req.id := by
  rw [serveKeepAlive]
  cases hkeep : s.leaseManager.keepAlive now req.id with
  | error status => exact (keepAlive_error hkeep).symm
  | ok r => exact (keepAlive_ok hkeep).symm

/-- When the loop returns, it is for a response that is not taken or a lease that is not there. -/
theorem serveKeepAlive_returns {s t : Server} {stream stream' : KeepAliveStream} {now : Int}
    {req : LeaseKeepAliveRequest} {status : Status}
    (h : serveKeepAlive s stream now req = (some status, t, stream')) :
    status = .OK ∨ status = internalError LeaseManager.leaseNotFound ∧
      t.leaseManager.leases.find? req.id = none := by
  cases hlease : s.leaseManager.leases.find? req.id with
  | none =>
    simp only [serveKeepAlive, LeaseManager.keepAlive, hlease, Prod.mk.injEq,
      Option.some.injEq] at h
    obtain ⟨rfl, rfl, -⟩ := h
    exact .inr ⟨rfl, hlease⟩
  | some info =>
    simp only [serveKeepAlive, LeaseManager.keepAlive, hlease, Prod.mk.injEq] at h
    obtain ⟨hstatus, -, -⟩ := h
    split_ifs at hstatus
    exact .inl (Option.some.inj hstatus).symm

/-- Keeping leases alive, one request after another. -/
def keepAlives : Server → List (Int × LeaseKeepAliveRequest) → Server :=
  Run.final fun s r => s.keepAlive r.1 r.2.id

/-- What a `LeaseKeepAlive` returns, and what it has done by then: it has kept alive the leases of a
first part of its requests, and if it fails, the lease of the next one is not there. -/
structure Ended (s : Server) (requests : List (Int × LeaseKeepAliveRequest)) (status : Status)
    (t : Server) : Prop where
  server : ∃ served, served <+: requests ∧ t = keepAlives s served
  failed : status = .OK ∨ status = internalError LeaseManager.leaseNotFound ∧
    ∃ r ∈ requests, t.leaseManager.leases.find? r.2.id = none

theorem leaseKeepAlive_ended (s : Server) (stream : KeepAliveStream)
    (requests : List (Int × LeaseKeepAliveRequest)) :
    Ended s requests (leaseKeepAlive s stream requests).1 (leaseKeepAlive s stream requests).2.1 := by
  induction requests generalizing s stream with
  | nil => exact ⟨⟨[], List.nil_prefix, rfl⟩, .inl rfl⟩
  | cons r requests ih =>
    obtain ⟨now, req⟩ := r
    have hserver := serveKeepAlive_server s stream now req
    rw [leaseKeepAlive]
    cases hserve : serveKeepAlive s stream now req with
    | mk status rest =>
      rw [hserve] at hserver
      cases status with
      | some status =>
        refine ⟨⟨[(now, req)], List.prefix_append [(now, req)] requests, hserver⟩, ?_⟩
        have hreturns := serveKeepAlive_returns hserve
        exact hreturns.imp_right fun h => ⟨h.1, (now, req), List.mem_cons_self, h.2⟩
      | none =>
        obtain ⟨⟨served, hserved, hrest⟩, hfailed⟩ := ih rest.1 rest.2
        refine ⟨⟨(now, req) :: served, (List.prefix_cons_inj _).mpr hserved, ?_⟩, ?_⟩
        · rw [keepAlives, Run.final_cons, ← hserver]
          exact hrest
        · refine hfailed.imp_right fun h => ⟨h.1, ?_⟩
          obtain ⟨r, hr, hnone⟩ := h.2
          exact ⟨r, List.mem_cons_of_mem _ hr, hnone⟩

/-- **What a request does to the server a run of operations does.** -/
theorem handle_run (s : Server) (r : Request) :
    ∃ calls, (r.handle s).2 = Run.final Call.exec s calls := by
  cases r with
  | grant now request => exact ⟨[.grant now request.ttl], rfl⟩
  | revoke request => exact ⟨[.revoke request.id], leaseRevoke_snd s request⟩
  | timeToLive now request => exact ⟨[], rfl⟩
  | keepAlive stream requests =>
    obtain ⟨served, -, hserved⟩ := (leaseKeepAlive_ended s stream requests).server
    refine ⟨served.map fun r => .keepAlive r.1 r.2.id, ?_⟩
    rw [Run.final, List.foldl_map]
    exact hserved

theorem indexed_handle {s : Server} (h : Indexed s) (r : Request) : Indexed (r.handle s).2 := by
  obtain ⟨calls, hcalls⟩ := handle_run s r
  rw [hcalls]
  exact Run.invariant Call.exec (fun _ c ht => ht.call c) h calls

/-! ### Requests that fail -/

/-- The revocation of a lease that is there succeeds. -/
theorem leaseRevoke_known {s : Server} {request : LeaseRevokeRequest} {info : LeaseInfo}
    (h : s.leaseManager.leases.find? request.id = some info) :
    statusOf (leaseRevoke s request).1 = .OK := by
  have hok : (s.revoke request.id).1 = .OK := by
    rw [Server.revoke, LeaseManager.getLeaseKeys_known h]
  simp [leaseRevoke, hok, Status.isError, Status.OK, statusOf]

theorem leaseRevoke_unknown {s : Server} {request : LeaseRevokeRequest}
    (h : s.leaseManager.leases.find? request.id = none) :
    leaseRevoke s request = (.error (internalError LeaseManager.leaseNotFound), s) := by
  rw [leaseRevoke, revoke_unknown h]
  rfl

/-- The leases that a request names. -/
def Request.names : Request → List Int
  | .grant _ _ => []
  | .revoke request => [request.id]
  | .timeToLive _ request => [request.id]
  | .keepAlive _ requests => requests.map fun r => r.2.id

/-- The keep-alives of a request. -/
def Request.keepAlives : Request → List (Int × LeaseKeepAliveRequest)
  | .keepAlive _ requests => requests
  | .grant _ _ | .revoke _ | .timeToLive _ _ => []

/-- **A request fails only for a lease that is not there**, which it names, and has done nothing
then but to keep leases alive. -/
theorem handle_failed {s : Server} {r : Request} (h : (r.handle s).1 ≠ .OK) :
    (r.handle s).1 = internalError LeaseManager.leaseNotFound ∧
      (∃ L ∈ r.names, (r.handle s).2.leaseManager.leases.find? L = none) ∧
      ∃ served, served <+: r.keepAlives ∧ (r.handle s).2 = keepAlives s served := by
  cases r with
  | grant now request => exact absurd rfl h
  | revoke request =>
    cases hL : s.leaseManager.leases.find? request.id with
    | some info => exact absurd (leaseRevoke_known hL) h
    | none =>
      rw [Request.handle, leaseRevoke_unknown hL]
      exact ⟨rfl, ⟨request.id, List.mem_singleton_self _, hL⟩, [], List.nil_prefix, rfl⟩
  | timeToLive now request =>
    cases hL : s.leaseManager.leases.find? request.id with
    | some info =>
      refine absurd ?_ h
      rw [Request.handle, leaseTimeToLive, LeaseManager.timeToLive, hL]
      rfl
    | none =>
      refine ⟨?_, ⟨request.id, List.mem_singleton_self _, hL⟩, [], List.nil_prefix, rfl⟩
      rw [Request.handle, leaseTimeToLive, LeaseManager.timeToLive, hL]
      rfl
  | keepAlive stream requests =>
    have hended := leaseKeepAlive_ended s stream requests
    obtain ⟨hstatus, r, hr, hnone⟩ := hended.failed.resolve_left h
    exact ⟨hstatus, ⟨r.2.id, List.mem_map_of_mem hr, hnone⟩, hended.server⟩

end LeaseService

end EtcdLite
