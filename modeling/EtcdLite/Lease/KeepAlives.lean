import EtcdLite.Lease.RevokeEffect
import EtcdLite.Model.LeaseService

/-!
# Keep-alives on one stream

The handler `LeaseKeepAlive` of one stream among the operations of other clients. Clients send the
keep-alives of all their leases on one stream. The handler returns at the first request that
names a lease which is not there, and reads no more: the requests behind it, for leases that are
there, are not answered and renew nothing. So every request that names a lease that is there is honoured
exactly when none of them comes behind one that names a lease which is not (`keepAlives_honoured_iff`).
-/

namespace EtcdLite

open Server LeaseService

/-- The server, the stream of a `LeaseKeepAlive`, and the status its handler has returned, if it has. -/
structure KeepAliveSystem where
  server : Server
  stream : KeepAliveStream
  returned : Option Status

namespace KeepAliveSystem

/-- A request of the client, with the reading of the clock when it is served, or an operation of
another client. -/
inductive Action where
  | request (now : Int) (req : LeaseKeepAliveRequest)
  | operation (op : Operation)

/-- One step. A handler that has returned reads no request. -/
def step (y : KeepAliveSystem) : Action → KeepAliveSystem
  | .request now req =>
    match y.returned with
    | some _ => y
    | none =>
      let (returned, server, stream) := serveKeepAlive y.server y.stream now req
      { server := server, stream := stream, returned := returned }
  | .operation op => { y with server := op.exec y.server }

/-- A handler that has returned is left as it is by its client's requests. -/
theorem run_returned {y : KeepAliveSystem} {status : Status} (h : y.returned = some status)
    (reqs : List (Int × LeaseKeepAliveRequest)) :
    Run.final step y (reqs.map fun r => .request r.1 r.2) = y := by
  induction reqs with
  | nil => rfl
  | cons r reqs ih =>
    have hsame : y.step (.request r.1 r.2) = y := by rw [step, h]
    rw [List.map_cons, Run.final_cons, hsame]
    exact ih

/-- The handler alone: its requests come one straight after the other. -/
theorem run_requests (s : Server) (stream : KeepAliveStream)
    (reqs : List (Int × LeaseKeepAliveRequest)) :
    let y := Run.final step ⟨s, stream, none⟩ (reqs.map fun r => .request r.1 r.2)
    leaseKeepAlive s stream reqs = (y.returned.getD .OK, y.server, y.stream) := by
  induction reqs generalizing s stream with
  | nil => rfl
  | cons r reqs ih =>
    rw [leaseKeepAlive, List.map_cons, Run.final_cons]
    cases hserve : serveKeepAlive s stream r.1 r.2 with
    | mk returned rest =>
      have hstep : step ⟨s, stream, none⟩ (.request r.1 r.2) = ⟨rest.1, rest.2, returned⟩ := by
        simp only [step, hserve]
      rw [hstep]
      cases returned with
      | some status =>
        rw [run_returned (y := ⟨rest.1, rest.2, some status⟩) rfl reqs]
        rfl
      | none => exact ih rest.1 rest.2

/-! ### Serving a request -/

/-- Every write to the stream succeeds. -/
def Takes (stream : KeepAliveStream) : Prop := ∀ n, stream.outcomes n = true

/-- The request names a lease that is there. -/
def NamesLive (y : KeepAliveSystem) : Action → Prop
  | .request _ req => (y.server.leaseManager.leases.find? req.id).isSome
  | .operation _ => True

/-- A request that names a lease that is there renews the lease, and is answered with its time to
live. -/
def Honours (y : KeepAliveSystem) : Action → Prop
  | .request now req => ∀ info, y.server.leaseManager.leases.find? req.id = some info →
      (y.step (.request now req)).server.leaseManager.leases.find? req.id =
        some { info with expireTime := deadline now info.ttl } ∧
      ∃ header, (y.step (.request now req)).stream.written =
        y.stream.written ++ [{ header := header, id := req.id, ttl := info.ttl }]
  | .operation _ => True

theorem step_unknown {y : KeepAliveSystem} (hopen : y.returned = none) (now : Int)
    {req : LeaseKeepAliveRequest} (h : y.server.leaseManager.leases.find? req.id = none) :
    y.step (.request now req) =
      { y with returned := some (internalError LeaseManager.leaseNotFound) } := by
  have hkeep : y.server.leaseManager.keepAlive now req.id = .error LeaseManager.leaseNotFound := by
    rw [LeaseManager.keepAlive, h]
  simp only [step, hopen, serveKeepAlive, hkeep]

/-- What serving a request for a lease that is there does, when the response is taken. -/
structure Served (y z : KeepAliveSystem) (now : Int) (id : Int) (info : LeaseInfo) : Prop where
  lease : z.server.leaseManager.leases.find? id =
    some { info with expireTime := deadline now info.ttl }
  written : ∃ header, z.stream.written =
    y.stream.written ++ [{ header := header, id := id, ttl := info.ttl }]
  takes : Takes z.stream
  returned : z.returned = none

theorem step_known {y : KeepAliveSystem} (hopen : y.returned = none) (htakes : Takes y.stream)
    (now : Int) {req : LeaseKeepAliveRequest} {info : LeaseInfo}
    (h : y.server.leaseManager.leases.find? req.id = some info) :
    Served y (y.step (.request now req)) now req.id info := by
  have hok : y.stream.outcomes 0 = true := htakes 0
  simp only [step, hopen, serveKeepAlive, LeaseManager.keepAlive, h, KeepAliveStream.write, hok]
  refine ⟨?_, ⟨_, rfl⟩, fun n => htakes (n + 1), rfl⟩
  simp [h]

/-- A handler that has returned stays so. -/
theorem returned_step {y : KeepAliveSystem} {status : Status} (h : y.returned = some status)
    (a : Action) : (y.step a).returned = some status := by
  cases a with
  | request now req =>
    rw [step, h]
    exact h
  | operation op => exact h

/-- **The handler has not returned exactly when every request so far named a lease that was
there.** -/
theorem returned_iff {y : KeepAliveSystem} (hopen : y.returned = none) (htakes : Takes y.stream)
    (acts : List Action) :
    (Run.final step y acts).returned = none ↔ Run.Along step NamesLive y acts := by
  induction acts generalizing y with
  | nil => exact iff_of_true hopen trivial
  | cons a acts ih =>
    rw [Run.final_cons, Run.Along]
    cases a with
    | operation op => simp only [ih (y := y.step (.operation op)) hopen htakes, NamesLive, true_and]
    | request now req =>
      cases hlease : y.server.leaseManager.leases.find? req.id with
      | some info =>
        have hserved := step_known hopen htakes now hlease
        rw [ih hserved.returned hserved.takes]
        simp [NamesLive, hlease]
      | none =>
        have hstep := step_unknown hopen now hlease
        have hclosed : (Run.final step (y.step (.request now req)) acts).returned =
            some (internalError LeaseManager.leaseNotFound) :=
          Run.invariant step
            (I := fun z => z.returned = some (internalError LeaseManager.leaseNotFound))
            (fun z a hz => returned_step hz a) (by rw [hstep]) acts
        rw [hclosed]
        simp [NamesLive, hlease]

/-- A stream that takes every write goes on doing so. -/
theorem takes_step {y : KeepAliveSystem} (h : Takes y.stream) (a : Action) :
    Takes (y.step a).stream := by
  cases a with
  | operation op => exact h
  | request now req =>
    cases hret : y.returned with
    | some status =>
      rw [step, hret]
      exact h
    | none =>
      cases hlease : y.server.leaseManager.leases.find? req.id with
      | some info => exact (step_known hret h now hlease).takes
      | none =>
        rw [step_unknown hret now hlease]
        exact h

/-- A request is honoured when the handler reads it. -/
theorem honours_request_iff {y : KeepAliveSystem} (htakes : Takes y.stream) (now : Int)
    (req : LeaseKeepAliveRequest) : y.Honours (.request now req) ↔
      (y.NamesLive (.request now req) → y.returned = none) := by
  constructor
  · intro hhonours hlive
    obtain ⟨info, hlease⟩ := Option.isSome_iff_exists.mp hlive
    obtain ⟨-, header, hwritten⟩ := hhonours info hlease
    by_contra hclosed
    -- The handler has returned, so nothing has been written.
    obtain ⟨status, hstatus⟩ := Option.ne_none_iff_exists'.mp hclosed
    rw [step, hstatus] at hwritten
    simp at hwritten
  · intro hopen info hlease
    have hserved := step_known (hopen (by rw [NamesLive, hlease]; rfl)) htakes now hlease
    exact ⟨hserved.lease, hserved.written⟩

/-! ### Runs -/

/-- No request that names a lease that is there comes behind one that names a lease that is not. -/
def DeadLast (y : KeepAliveSystem) (acts : List Action) : Prop :=
  ∀ pre now req post, acts = pre ++ .request now req :: post →
    (Run.final step y pre).NamesLive (.request now req) → Run.Along step NamesLive y pre

/-- **The keep-alives of a stream are honoured exactly when none comes behind a dead one.** On any
server, on a stream that takes every write, and whatever operations of other clients come in between:
every request that names a lease that is there at that time renews it and is answered with
its time to live exactly when no such request comes behind one that names a lease that was not
there. -/
theorem keepAlives_honoured_iff (s : Server) (stream : KeepAliveStream) (htakes : Takes stream)
    (acts : List Action) :
    Run.Along step Honours ⟨s, stream, none⟩ acts ↔ DeadLast ⟨s, stream, none⟩ acts := by
  have hstream : ∀ pre, Takes (Run.final step ⟨s, stream, none⟩ pre).stream := fun pre =>
    Run.invariant step (I := fun y => Takes y.stream) (fun y a hy => takes_step hy a) htakes pre
  rw [Run.along_iff_split, DeadLast]
  constructor
  · intro h pre now req post hacts hlive
    have hopen := (honours_request_iff (hstream pre) now req).mp (h pre _ post hacts) hlive
    exact (returned_iff (y := ⟨s, stream, none⟩) rfl htakes pre).mp hopen
  · intro h pre a post hacts
    cases a with
    | operation op => trivial
    | request now req =>
      refine (honours_request_iff (hstream pre) now req).mpr fun hlive => ?_
      exact (returned_iff (y := ⟨s, stream, none⟩) rfl htakes pre).mpr (h pre now req post hacts hlive)

/-- A stream that takes every write. -/
def openStream : KeepAliveStream := ⟨fun _ => true, []⟩

/-- Two keep-alives of a lease, with a check of the leases in between. -/
theorem keepAlives_honoured_twice :
    let s := (Server.new .plain).grant 0 5
    let acts : List Action := [.request 1000000000 { id := 1 },
      .operation (.call (.checkExpiration 2000000000)), .request 3000000000 { id := 1 }]
    Run.Along step Honours ⟨s, openStream, none⟩ acts ↔ DeadLast ⟨s, openStream, none⟩ acts :=
  keepAlives_honoured_iff _ openStream (fun _ => rfl) _

/-- A keep-alive of a lease that is there, behind one of a lease that is not. -/
theorem keepAlives_lost :
    ¬ Run.Along step Honours ⟨(Server.new .plain).grant 0 5, openStream, none⟩
      [.request 1000000000 { id := 7 }, .request 2000000000 { id := 1 }] := by
  rintro ⟨-, hsecond, -⟩
  obtain ⟨-, header, hwritten⟩ := hsecond _ rfl
  cases hwritten

end KeepAliveSystem

end EtcdLite
