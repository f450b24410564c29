import EtcdLite.Kv.RangeQuery
import EtcdLite.Lease.Index
import EtcdLite.Model.WatchService
import EtcdLite.Watch.Writes

/-!
# Watch handlers, interleaved

The server with a handler for each stream. A handler reads the requests of its client. It
takes a cancel request in one step, under the lock of the registry, but runs
`RegisterWatcher` a step at a time (`WatchSystem.resume`), with any steps of the others in
between:

* the next watch id is taken; the revision is read; the created response is written;
* if the request asks for history, the range is read, and each of its key-values is sent;
* the watcher is inserted in the registry.

If the created response is not written, the handler fills and writes a response that says so,
and returns. It also returns when its client disconnects. The other threads run atomic
sections: `Put`, `Delete` and `Txn`, with their notifications, and those of the lease manager.

A handler that is left alone does what it does when a request is run to completion
(`drive_serve`).
-/

namespace EtcdLite

open Server WatchManager

/-- Where the handler of a stream stands. -/
inductive Handler where
  /-- The stream has not been opened. -/
  | closed
  /-- In `stream->Read`. -/
  | reading
  /-- In `RegisterWatcher`: the watcher has its id and its fields. -/
  | numbered (w : Watcher)
  /-- The revision for the created response has been read. -/
  | stamped (w : Watcher) (revision : Int)
  /-- The created response has been written. -/
  | created (w : Watcher)
  /-- These key-values are to be sent, and then the watcher is to be inserted. -/
  | sending (w : Watcher) (kvs : List KeyValue)
  /-- The created response has not been written. -/
  | failed (watchId : Int)
  /-- The header of the response that says so has been filled. -/
  | refusing (watchId : Int) (header : ResponseHeader)
  /-- It has returned. -/
  | returned
  deriving DecidableEq, Repr

/-- The id that the handler is registering a watcher at. -/
def Handler.watchId? : Handler → Option Int
  | .numbered w | .stamped w _ | .created w | .sending w _ => some w.watchId
  | .failed watchId | .refusing watchId _ => some watchId
  | .closed | .reading | .returned => none

/-- The watcher that the handler is registering. -/
def Handler.watcher? : Handler → Option Watcher
  | .numbered w | .stamped w _ | .created w | .sending w _ => some w
  | .failed _ | .refusing _ _ | .closed | .reading | .returned => none

/-- The handler has been called and has not returned. -/
def Handler.Running (h : Handler) : Prop := h ≠ .closed ∧ h ≠ .returned

/-- The server, and the handler of each stream. -/
structure WatchSystem where
  server : Server
  handlers : StreamId → Handler

/-- The created response, with the revision that has been read for it. -/
def createdAt (w : Watcher) (revision : Int) : WatchResponse :=
  { header := eventHeader w revision, watchId := w.watchId, created := true }

namespace WatchSystem

/-- The start: a server as its constructor leaves it, and no stream open. -/
def start (env : Env) : WatchSystem := { server := .new env, handlers := fun _ => .closed }

/-- A handler moves on, and leaves the server so. -/
def moveTo (y : WatchSystem) (s : Server) (sid : StreamId) (h : Handler) : WatchSystem :=
  { y with server := s, handlers := Function.update y.handlers sid h }

/-- `nextWatchId_++`. -/
def takeId (s : Server) : Server :=
  { s with watchManager.nextWatchId := s.watchManager.nextWatchId + 1 }

/-- `watchers_[watchId] = watcher`. -/
def insertWatcher (s : Server) (w : Watcher) : Server :=
  { s with watchManager.watchers := s.watchManager.watchers.insert w.watchId w }

/-- `SendWatchResponse`. -/
def send (s : Server) (w : Watcher) (response : WatchResponse) : Bool × Server :=
  let (ok, streams) := sendWatchResponse w response s.streams
  (ok, { s with streams := streams })

/-- The key-values that a watcher is to be sent as historical events. -/
def history (s : Server) (w : Watcher) : List KeyValue :=
  if w.startRevision > 0 then s.kvStore.range w.key w.rangeEnd 0 false false else []

/-- The next step of a handler in the middle of a request. -/
def resume (y : WatchSystem) (sid : StreamId) : WatchSystem :=
  match y.handlers sid with
  | .numbered w => y.moveTo y.server sid (.stamped w y.server.kvStore.currentRevision)
  | .stamped w revision =>
    let (ok, s) := send y.server w (createdAt w revision)
    y.moveTo s sid (if ok then .created w else .failed w.watchId)
  | .created w => y.moveTo y.server sid (.sending w (history y.server w))
  | .sending w (kv :: kvs) =>
    let (_, s) := send y.server w (historicalResponse w kv)
    y.moveTo s sid (.sending w kvs)
  | .sending w [] => y.moveTo (insertWatcher y.server w) sid .reading
  | .failed watchId =>
    y.moveTo y.server sid (.refusing watchId (WatchService.responseHeader y.server))
  | .refusing watchId header =>
    y.moveTo (WatchService.write y.server sid (WatchService.failedResponse watchId header)) sid
      .returned
  | .closed | .reading | .returned => y

/-- The handler reads a request: a registration begins by taking the next watch id. -/
def read (y : WatchSystem) (sid : StreamId) : WatchRequest → WatchSystem
  | .createRequest req =>
    y.moveTo (takeId y.server) sid (.numbered (y.server.watchManager.makeWatcher req (some sid)))
  | .cancelRequest watchId => { y with server := (y.server.cancelWatcher watchId).2 }
  | .progressRequest | .notSet => y

/-- What can happen next. -/
inductive Action where
  /-- Another thread runs an atomic section. -/
  | atom (a : Atom)
  /-- A client opens a stream. -/
  | connect (sid : StreamId)
  /-- The handler of a stream reads a request. -/
  | request (sid : StreamId) (req : WatchRequest)
  /-- The handler of a stream finds that its client has gone. -/
  | disconnect (sid : StreamId)
  /-- The handler of a stream takes its next step. -/
  | resume (sid : StreamId)

/-- One step. -/
def step (y : WatchSystem) : Action → WatchSystem
  | .atom a => { y with server := a.exec y.server }
  | .connect sid => if y.handlers sid = .closed then y.moveTo y.server sid .reading else y
  | .request sid req => if y.handlers sid = .reading then y.read sid req else y
  | .disconnect sid => if y.handlers sid = .reading then y.moveTo y.server sid .returned else y
  | .resume sid => y.resume sid

/-- The state a run leads to. -/
abbrev run (y : WatchSystem) (acts : List Action) : WatchSystem := Run.final step y acts

/-! ### What a step does -/

@[simp] theorem moveTo_server (y : WatchSystem) (s : Server) (sid : StreamId) (h : Handler) :
    (y.moveTo s sid h).server = s := rfl

@[simp] theorem moveTo_self (y : WatchSystem) (s : Server) (sid : StreamId) (h : Handler) :
    (y.moveTo s sid h).handlers sid = h := Function.update_self ..

theorem moveTo_of_ne (y : WatchSystem) (s : Server) {sid sid' : StreamId} (hne : sid' ≠ sid)
    (h : Handler) : (y.moveTo s sid h).handlers sid' = y.handlers sid' :=
  Function.update_of_ne hne ..

/-- The server after some writes. -/
def writing (s : Server) (ws : List (StreamId × WatchResponse)) : Server :=
  { s with streams := writeAll s.streams ws }

/-- `watchers_.erase(watchId)`. -/
def eraseWatcher (s : Server) (watchId : Int) : Server :=
  { s with watchManager.watchers := s.watchManager.watchers.erase watchId }

/-- The response that says a watcher is canceled. -/
def canceledResponse (s : Server) (watchId : Int) : WatchResponse :=
  { header := { clusterId := s.watchManager.clusterId, memberId := s.watchManager.memberId },
    watchId := watchId, canceled := true }

/-- The responses that a step writes, and to which streams, whatever becomes of them. -/
def writes (y : WatchSystem) : Action → List (StreamId × WatchResponse)
  | .atom (.kv op) => toWrites (op.sends y.server)
  | .request sid (.cancelRequest watchId) =>
    if y.handlers sid = .reading then
      toWrites ((y.server.watchManager.watchers.find? watchId).toList.map fun w =>
        (w, canceledResponse y.server watchId))
    else []
  | .resume sid =>
    match y.handlers sid with
    | .stamped w revision => toWrites [(w, createdAt w revision)]
    | .sending w (kv :: _) => toWrites [(w, historicalResponse w kv)]
    | .refusing watchId header => [(sid, WatchService.failedResponse watchId header)]
    | .closed | .reading | .numbered _ | .created _ | .sending _ [] | .failed _ | .returned => []
  | .atom _ | .request _ _ | .connect _ | .disconnect _ => []

/-- What the steps of a handler, and of its client, can be. -/
inductive Moves (y : WatchSystem) (sid : StreamId) : Action → WatchSystem → Prop
  /-- Its stream is opened. -/
  | connected (h : y.handlers sid = .closed) :
      Moves y sid (.connect sid) (y.moveTo y.server sid .reading)
  /-- It returns, the client having gone. -/
  | disconnected (h : y.handlers sid = .reading) :
      Moves y sid (.disconnect sid) (y.moveTo y.server sid .returned)
  /-- It takes the next watch id. -/
  | numbered {req : WatchCreateRequest} (h : y.handlers sid = .reading) :
      Moves y sid (.request sid (.createRequest req))
        (y.moveTo (takeId y.server) sid
          (.numbered (y.server.watchManager.makeWatcher req (some sid))))
  /-- It cancels a watcher. -/
  | canceled {watchId : Int} {w : Watcher} (h : y.handlers sid = .reading)
      (hw : y.server.watchManager.watchers.find? watchId = some w) :
      Moves y sid (.request sid (.cancelRequest watchId))
        (y.moveTo
          (eraseWatcher (writing y.server (toWrites [(w, canceledResponse y.server watchId)]))
            watchId) sid .reading)
  /-- It reads the revision. -/
  | stamped {w : Watcher} (h : y.handlers sid = .numbered w) :
      Moves y sid (.resume sid) (y.moveTo y.server sid (.stamped w y.server.kvStore.revision))
  /-- It writes the created response. -/
  | created {w : Watcher} {revision : Int} (h : y.handlers sid = .stamped w revision)
      (hok : (send y.server w (createdAt w revision)).1 = true) :
      Moves y sid (.resume sid)
        (y.moveTo (writing y.server (toWrites [(w, createdAt w revision)])) sid (.created w))
  /-- It fails to. -/
  | failed {w : Watcher} {revision : Int} (h : y.handlers sid = .stamped w revision)
      (hok : (send y.server w (createdAt w revision)).1 = false) :
      Moves y sid (.resume sid)
        (y.moveTo (writing y.server (toWrites [(w, createdAt w revision)])) sid
          (.failed w.watchId))
  /-- It reads the range, if the request asks for history. -/
  | collected {w : Watcher} (h : y.handlers sid = .created w) :
      Moves y sid (.resume sid) (y.moveTo y.server sid (.sending w (history y.server w)))
  /-- It sends a historical event. -/
  | sent {w : Watcher} {kv : KeyValue} {kvs : List KeyValue}
      (h : y.handlers sid = .sending w (kv :: kvs)) :
      Moves y sid (.resume sid)
        (y.moveTo (writing y.server (toWrites [(w, historicalResponse w kv)])) sid
          (.sending w kvs))
  /-- It inserts the watcher. -/
  | inserted {w : Watcher} (h : y.handlers sid = .sending w []) :
      Moves y sid (.resume sid) (y.moveTo (insertWatcher y.server w) sid .reading)
  /-- It fills the header of the response that says it failed. -/
  | filled {watchId : Int} (h : y.handlers sid = .failed watchId) :
      Moves y sid (.resume sid)
        (y.moveTo y.server sid (.refusing watchId (WatchService.responseHeader y.server)))
  /-- It writes that response, and returns. -/
  | refused {watchId : Int} {header : ResponseHeader}
      (h : y.handlers sid = .refusing watchId header) :
      Moves y sid (.resume sid)
        (y.moveTo (writing y.server [(sid, WatchService.failedResponse watchId header)]) sid
          .returned)

/-- A historical range has the entries of the store. -/
theorem mem_history {s : Server} {w : Watcher} {kv : KeyValue} : kv ∈ history s w ↔
    w.startRevision > 0 ∧ ∃ k info, s.data k = some info ∧
      keyInRange k w.key w.rangeEnd = true ∧ info.kv = kv := by
  rw [history]
  split_ifs with hstart
  · rw [s.kvStore.mem_range w.key w.rangeEnd]
    exact (and_iff_right hstart).symm
  · simp [hstart]

theorem send_snd (s : Server) (w : Watcher) (r : WatchResponse) :
    (send s w r).2 = writing s (toWrites [(w, r)]) := by
  rw [writing, ← sendAll_eq_writeAll]
  rfl

/-- A handler that cancels goes on reading. -/
theorem moveTo_same {y : WatchSystem} {sid : StreamId} {h : Handler} (hy : y.handlers sid = h)
    (s : Server) : y.moveTo s sid h = { y with server := s } := by
  rw [moveTo, ← hy, Function.update_eq_self]

/-- A step is an atomic section of another thread, or a step of one handler, or changes
nothing. -/
theorem step_cases (y : WatchSystem) (a : Action) :
    (∃ atom, a = .atom atom ∧ y.step a = { y with server := atom.exec y.server }) ∨
      (∃ sid, Moves y sid a (y.step a)) ∨
        ((∀ atom, a ≠ .atom atom) ∧ y.writes a = [] ∧ y.step a = y) := by
  cases a with
  | atom a => exact .inl ⟨a, rfl, rfl⟩
  | connect sid =>
    rw [step]
    split_ifs with h
    · exact .inr (.inl ⟨sid, .connected h⟩)
    · exact .inr (.inr ⟨by simp, rfl, rfl⟩)
  | disconnect sid =>
    rw [step]
    split_ifs with h
    · exact .inr (.inl ⟨sid, .disconnected h⟩)
    · exact .inr (.inr ⟨by simp, rfl, rfl⟩)
  | request sid req =>
    rw [step]
    split_ifs with h
    · cases req with
      | createRequest req => exact .inr (.inl ⟨sid, .numbered h⟩)
      | cancelRequest watchId =>
        rw [read, ← moveTo_same h, Server.cancelWatcher, WatchManager.cancelWatcher]
        cases hw : y.server.watchManager.watchers.find? watchId with
        | none => exact .inr (.inr ⟨by simp, by rw [writes, if_pos h, hw]; rfl, moveTo_same h _⟩)
        | some w =>
          have hcanceled := Moves.canceled h hw
          rw [← send_snd] at hcanceled
          exact .inr (.inl ⟨sid, hcanceled⟩)
      | progressRequest => exact .inr (.inr ⟨by simp, rfl, rfl⟩)
      | notSet => exact .inr (.inr ⟨by simp, rfl, rfl⟩)
    · refine .inr (.inr ⟨by simp, ?_, rfl⟩)
      cases req with
      | cancelRequest watchId => exact if_neg h
      | _ => rfl
  | resume sid =>
    rw [step, resume]
    cases h : y.handlers sid with
    | closed => exact .inr (.inr ⟨by simp, by rw [writes, h], rfl⟩)
    | reading => exact .inr (.inr ⟨by simp, by rw [writes, h], rfl⟩)
    | returned => exact .inr (.inr ⟨by simp, by rw [writes, h], rfl⟩)
    | numbered w => exact .inr (.inl ⟨sid, .stamped h⟩)
    | stamped w revision =>
      refine .inr (.inl ⟨sid, ?_⟩)
      dsimp only
      rw [send_snd]
      cases hok : (send y.server w (createdAt w revision)).1 with
      | true => exact .created h hok
      | false => exact .failed h hok
    | created w => exact .inr (.inl ⟨sid, .collected h⟩)
    | sending w kvs =>
      refine .inr (.inl ⟨sid, ?_⟩)
      cases kvs with
      | nil => exact .inserted h
      | cons kv kvs =>
        dsimp only
        rw [send_snd]
        exact .sent h
    | failed watchId => exact .inr (.inl ⟨sid, .filled h⟩)
    | refusing watchId header => exact .inr (.inl ⟨sid, .refused h⟩)

/-! ### A handler left alone -/

/-- A handler takes `n` steps, and no other thread takes one. -/
abbrev drive (y : WatchSystem) (sid : StreamId) (n : ℕ) : WatchSystem :=
  y.run (List.replicate n (.resume sid))

theorem drive_succ (y : WatchSystem) (sid : StreamId) (n : ℕ) :
    y.drive sid (n + 1) = (y.resume sid).drive sid n := rfl

theorem drive_add (y : WatchSystem) (sid : StreamId) (m n : ℕ) :
    y.drive sid (m + n) = (y.drive sid m).drive sid n := by
  rw [drive, List.replicate_add]
  exact Run.final_append ..

theorem moveTo_moveTo (y : WatchSystem) (s s' : Server) (sid : StreamId) (h h' : Handler) :
    (y.moveTo s sid h).moveTo s' sid h' = y.moveTo s' sid h' := by
  simp only [moveTo, Function.update_idem]

/-- It reads the revision and writes the created response. -/
theorem drive_numbered {y : WatchSystem} {sid : StreamId} {w : Watcher}
    (h : y.handlers sid = .numbered w) : y.drive sid 2 =
      y.moveTo (send y.server w (createdAt w y.server.kvStore.revision)).2 sid
        (if (send y.server w (createdAt w y.server.kvStore.revision)).1 then .created w
          else .failed w.watchId) := by
  have hres : y.resume sid = y.moveTo y.server sid (.stamped w y.server.kvStore.revision) := by
    rw [resume, h]
    rfl
  rw [drive_succ, drive_succ, hres, resume, moveTo_self]
  exact moveTo_moveTo ..

/-- It writes that it has failed, and returns. -/
theorem drive_failed {y : WatchSystem} {sid : StreamId} {watchId : Int}
    (h : y.handlers sid = .failed watchId) : y.drive sid 2 =
      y.moveTo (WatchService.write y.server sid
        (WatchService.failedResponse watchId (WatchService.responseHeader y.server))) sid
        .returned := by
  have hres : y.resume sid = y.moveTo y.server sid
      (.refusing watchId (WatchService.responseHeader y.server)) := by
    rw [resume, h]
  rw [drive_succ, drive_succ, hres, resume, moveTo_self]
  exact moveTo_moveTo ..

/-- It sends its historical events and inserts the watcher. -/
theorem drive_sending {y : WatchSystem} {sid : StreamId} {w : Watcher} {kvs : List KeyValue}
    (h : y.handlers sid = .sending w kvs) :
    y.drive sid (kvs.length + 1) = y.moveTo
      (insertWatcher { y.server with
        streams := kvs.foldl
          (fun streams kv => (sendWatchResponse w (historicalResponse w kv) streams).2)
          y.server.streams } w) sid .reading := by
  induction kvs generalizing y with
  | nil =>
    rw [List.length_nil, drive_succ, resume, h]
    rfl
  | cons kv kvs ih =>
    have hres : y.resume sid =
        y.moveTo (send y.server w (historicalResponse w kv)).2 sid (.sending w kvs) := by
      rw [resume, h]
    rw [List.length_cons, drive_succ, hres, ih (moveTo_self ..), moveTo_moveTo]
    rfl

/-- It reads the range, if the request asks for history, and goes on to insert the watcher. -/
theorem drive_created {y : WatchSystem} {sid : StreamId} {w : Watcher}
    (h : y.handlers sid = .created w) : ∃ n, y.drive sid n = y.moveTo
      (insertWatcher { y.server with
        streams := if w.startRevision > 0 then
            sendHistoricalEvents w y.server.kvStore y.server.streams
          else y.server.streams } w) sid .reading := by
  have hres : y.resume sid = y.moveTo y.server sid (.sending w (history y.server w)) := by
    rw [resume, h]
  refine ⟨(history y.server w).length + 1 + 1, ?_⟩
  rw [drive_succ, hres, drive_sending (moveTo_self ..), moveTo_moveTo, history]
  split_ifs <;> rfl

/-- A registration whose created response is not written, run to completion. -/
theorem registerWatcher_refused {s : Server} {req : WatchCreateRequest} {stream : Option StreamId}
    (h : s.takesCreated req stream = false) :
    let w := s.watchManager.makeWatcher req stream
    s.registerWatcher req stream =
      (⟨.internal, "Failed to send watch created response"⟩, w.watchId,
        (send (takeId s) w (createdAt w s.kvStore.revision)).2) := by
  intro w
  simp only [Server.registerWatcher, WatchManager.registerWatcher,
    show (sendWatchResponse (s.watchManager.makeWatcher req stream)
      (createdResponse (s.watchManager.makeWatcher req stream) (some s.kvStore)) s.streams).1 =
        false from h]
  rfl

/-- A registration whose created response is written, run to completion. -/
theorem registerWatcher_inserted {s : Server} {req : WatchCreateRequest} {stream : Option StreamId}
    (h : s.takesCreated req stream = true) :
    let w := s.watchManager.makeWatcher req stream
    let s' := (send (takeId s) w (createdAt w s.kvStore.revision)).2
    s.registerWatcher req stream =
      (.OK, w.watchId, insertWatcher { s' with
        streams := if w.startRevision > 0 then sendHistoricalEvents w s'.kvStore s'.streams
          else s'.streams } w) := by
  intro w s'
  simp only [Server.registerWatcher, WatchManager.registerWatcher,
    show (sendWatchResponse (s.watchManager.makeWatcher req stream)
      (createdResponse (s.watchManager.makeWatcher req stream) (some s.kvStore)) s.streams).1 =
        true from h]
  rfl

/-- A handler whose registration fails returns, when it has written so. -/
theorem serve_failed {s : Server} {sid : StreamId} {req : WatchCreateRequest}
    (h : s.takesCreated req (some sid) = false) :
    let w := s.watchManager.makeWatcher req (some sid)
    let s' := (send (takeId s) w (createdAt w s.kvStore.revision)).2
    (WatchService.serve s sid (.createRequest req)).1.isSome = true ∧
      (WatchService.serve s sid (.createRequest req)).2 = WatchService.write s' sid
        (WatchService.failedResponse w.watchId (WatchService.responseHeader s')) := by
  rw [WatchService.serve, registerWatcher_refused h]
  exact ⟨rfl, rfl⟩

/-- A handler whose registration succeeds goes on reading. -/
theorem serve_done {s : Server} {sid : StreamId} {req : WatchCreateRequest}
    (h : s.takesCreated req (some sid) = true) :
    (WatchService.serve s sid (.createRequest req)).1.isSome = false ∧
      (WatchService.serve s sid (.createRequest req)).2 = (s.registerWatcher req (some sid)).2.2 := by
  rw [WatchService.serve, registerWatcher_inserted h]
  exact ⟨rfl, rfl⟩

/-- **A handler left alone does what it does when the request is run to completion**: it goes
on reading, or returns. -/
theorem drive_serve {y : WatchSystem} {sid : StreamId} (h : y.handlers sid = .reading)
    (req : WatchRequest) : ∃ n, (y.step (.request sid req)).drive sid n =
      y.moveTo (WatchService.serve y.server sid req).2 sid
        (if (WatchService.serve y.server sid req).1.isSome then .returned else .reading) := by
  rw [step, if_pos h]
  cases req with
  | notSet => exact ⟨0, (moveTo_same h _).symm⟩
  | progressRequest => exact ⟨0, (moveTo_same h _).symm⟩
  | cancelRequest watchId => exact ⟨0, (moveTo_same h _).symm⟩
  | createRequest req =>
    have htwo := drive_numbered (y := y.read sid (.createRequest req)) (moveTo_self ..)
    have hsent : (send (y.read sid (.createRequest req)).server
        (y.server.watchManager.makeWatcher req (some sid))
        (createdAt (y.server.watchManager.makeWatcher req (some sid))
          (y.read sid (.createRequest req)).server.kvStore.revision)).1 =
        y.server.takesCreated req (some sid) := rfl
    rw [hsent] at htwo
    cases hok : y.server.takesCreated req (some sid) with
    | false =>
      obtain ⟨hstatus, hserver⟩ := serve_failed hok
      rw [hok, if_neg Bool.false_ne_true] at htwo
      refine ⟨2 + 2, ?_⟩
      rw [drive_add, htwo, drive_failed (moveTo_self ..), hstatus, hserver, moveTo_moveTo]
      exact moveTo_moveTo ..
    | true =>
      obtain ⟨hstatus, hserver⟩ := serve_done hok
      rw [hok, if_pos rfl] at htwo
      obtain ⟨n, hn⟩ := drive_created (y := (y.read sid (.createRequest req)).drive sid 2)
        (by rw [htwo]; exact moveTo_self ..)
      refine ⟨2 + n, ?_⟩
      rw [drive_add, hn, htwo, hstatus, hserver, registerWatcher_inserted hok, moveTo_moveTo]
      exact moveTo_moveTo ..

end WatchSystem

end EtcdLite
