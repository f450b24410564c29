import EtcdLite.Lease.Index
import EtcdLite.Lib.Handlers
import EtcdLite.Model.Requests

/-!
# The handlers, a section at a time

The handlers of `EtcdLite.Model.Requests` again (`Server.handler`), now as gRPC runs them: each on a
thread of its own, with the others in between wherever no lock is held. A handler makes one call to
the store or to the lease manager, which is one section; but `Revoke` and `CheckExpiration` are
several. The header is filled in a section of its own, after the call has let go of the lock, and
`Status` reads the revision twice. Only `Txn` fills the header while it holds the lock.

A request on a watch stream is one section here, and not answered; its parts are in
`EtcdLite.Watch.Gap`.
-/

namespace EtcdLite

open Server Handlers

/-- What a section does to the server. -/
inductive ServerAct where
  | atom (a : Atom)
  | watch (sid : StreamId) (r : WatchRequest)

/-- Running it. -/
def ServerAct.exec (s : Server) : ServerAct → Server
  | .atom a => a.exec s
  | .watch sid r => (WatchService.serve s sid r).2

/-- A handler of the server. -/
abbrev HandlerProg := Prog Server ServerAct Response

namespace Server

/-- `FillResponseHeader`, and the handler returns. -/
def fillHeader (response : ResponseHeader → Response) : HandlerProg :=
  .step none fun s => .done (response (KVService.responseHeader s))

/-- A call to the store. -/
def callKv (op : KvOp) (next : Server → HandlerProg) : HandlerProg :=
  .step (some (.atom (.kv op))) next

/-- The loop of `Revoke` over the keys of the lease. -/
def deleteKeys (next : HandlerProg) : List Bytes → HandlerProg
  | [] => next
  | key :: keys => callKv (.delete key [] false) fun _ => deleteKeys next keys

/-- `LeaseManager::Revoke`. -/
def revokeLease (leaseId : Int) (next : Status → HandlerProg) : HandlerProg :=
  .step none fun s =>
    match s.leaseManager.getLeaseKeys leaseId with
    | .error rc => next rc
    | .ok keys =>
      deleteKeys (.step (some (.atom (.erase leaseId))) fun _ => next .OK)
        (if s.leaseManager.deleteKeyCallback then keys else [])

/-- The loop of `CheckExpiration` over the expired leases. -/
def revokeLeases : List Int → HandlerProg
  | [] => .done .none
  | leaseId :: leaseIds => revokeLease leaseId fun _ => revokeLeases leaseIds

/-- The handler of a request. -/
def handler : Request → HandlerProg
  | .put r =>
    let prevKv := if r.prevKv then some {} else none
    callKv (.put r.key r.value r.lease prevKv) fun s =>
      fillHeader fun header => .put
        { header := some header,
          prevKv := if r.prevKv then (s.put r.key r.value r.lease prevKv).1 else none }
  | .range r =>
    .step none fun s =>
      let kvs := s.kvStore.range r.key r.rangeEnd r.limit r.countOnly r.keysOnly
      fillHeader fun header => .range
        { header := some header, kvs := kvs, count := kvs.length, more := false }
  | .deleteRange r =>
    callKv (.delete r.key r.rangeEnd true) fun s =>
      let prevKvs := (s.delete r.key r.rangeEnd true).1.getD []
      fillHeader fun header => .deleteRange
        { header := some header, deleted := prevKvs.length,
          prevKvs := if r.prevKv then prevKvs else [] }
  | .txn r =>
    callKv (.txn r.compare r.success r.failure) fun s =>
      .done (.txn (s.txn r.compare r.success r.failure).1)
  | .compact _ => fillHeader fun header => .compact { header := some header }
  | .leaseGrant now r =>
    .step (some (.atom (.grant now r.ttl))) fun s =>
      let (leaseId, actualTtl, _) := s.leaseManager.grant now r.ttl
      fillHeader fun header => .leaseGrant
        { header := some header, id := leaseId, ttl := actualTtl }
  | .leaseKeepAlive now r =>
    .step (some (.atom (.keepAlive now r.id))) fun s =>
      match s.leaseManager.keepAlive now r.id with
      | .error status => .done (.failed (LeaseService.internalError status))
      | .ok (ttl, _) =>
        fillHeader fun header => .leaseKeepAlive { header := some header, id := r.id, ttl := ttl }
  | .leaseRevoke r =>
    revokeLease r.id fun status =>
      if status.isError then .done (.failed (LeaseService.internalError status))
      else fillHeader fun header => .leaseRevoke { header := some header }
  | .leaseTimeToLive now r =>
    .step none fun s =>
      match s.leaseManager.timeToLive now r.id (if r.keys then some [] else none) with
      | .error status => .done (.failed (LeaseService.internalError status))
      | .ok (ttl, keys) =>
        fillHeader fun header => .leaseTimeToLive
          { header := some header, id := r.id, ttl := ttl,
            keys := if r.keys then keys.getD [] else [] }
  | .status =>
    .step none fun s => .step none fun s' =>
      .done (.status (MaintenanceService.status s.kvStore s'.kvStore))
  | .watch sid r => .step (some (.watch sid r)) fun _ => .done .none
  | .checkExpiration now => .step none fun s => revokeLeases (s.leaseManager.expiredLeases now)

/-! ### Handlers that are left alone -/

theorem run_deleteKeys (s : Server) (next : HandlerProg) (keys : List Bytes) :
    (deleteKeys next keys).run ServerAct.exec s =
      next.run ServerAct.exec (keys.foldl deleteKeyCallback s) := by
  induction keys generalizing s with
  | nil => rfl
  | cons key keys ih => exact ih (s.deleteKeyCallback key)

theorem run_revokeLease (s : Server) (leaseId : Int) (next : Status → HandlerProg) :
    (revokeLease leaseId next).run ServerAct.exec s =
      (next (s.revoke leaseId).1).run ServerAct.exec (s.revoke leaseId).2 := by
  rw [revokeLease, Prog.run, Server.revoke]
  dsimp only [Option.elim_none]
  cases s.leaseManager.getLeaseKeys leaseId with
  | error rc => rfl
  | ok keys =>
    dsimp only
    rw [run_deleteKeys]
    cases s.leaseManager.deleteKeyCallback <;> rfl

theorem run_revokeLeases (s : Server) (leaseIds : List Int) :
    (revokeLeases leaseIds).run ServerAct.exec s =
      (.none, leaseIds.foldl (fun s leaseId => (s.revoke leaseId).2) s) := by
  induction leaseIds generalizing s with
  | nil => rfl
  | cons leaseId leaseIds ih =>
    rw [revokeLeases, run_revokeLease, ih, List.foldl_cons]

/-- **A handler that is left alone handles its request** as it does from beginning to end. -/
theorem run_handler (s : Server) (req : Request) :
    (handler req).run ServerAct.exec s = s.serve req := by
  cases req with
  | leaseKeepAlive now r =>
    rw [handler, Prog.run, Server.serve, LeaseService.serveKeepAlive]
    simp only [Option.elim_some, ServerAct.exec, Atom.exec, Server.keepAlive]
    cases s.leaseManager.keepAlive now r.id <;> rfl
  | leaseRevoke r =>
    rw [handler, run_revokeLease, Server.serve, LeaseService.leaseRevoke]
    dsimp only
    split_ifs <;> rfl
  | leaseTimeToLive now r =>
    rw [handler, Prog.run, Server.serve, LeaseService.leaseTimeToLive]
    cases s.leaseManager.timeToLive now r.id (if r.keys then some [] else none) <;> rfl
  | checkExpiration now => exact run_revokeLeases s (s.leaseManager.expiredLeases now)
  | _ => rfl

end Server

end EtcdLite
