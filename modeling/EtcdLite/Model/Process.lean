import EtcdLite.Model.Handlers
import Mathlib.Data.Finset.Basic

/-!
# The process

The program (`main.cpp`) with all that runs in it: the main thread, which starts the server, waits
for it, and destroys it in the end; the shutdown thread, which stops the server after a signal
(`ShutdownThread`); the expiration thread of the lease manager (`StartExpirationCheck`); and the
handlers of clients. One step is one of a thread, or one of the outside: a call, a signal, the clock.
A thread that has to wait for another stays where it is.

Of gRPC there is this: a server that is built takes calls; `Shutdown` takes no more, and returns when
none is in progress; `Wait` returns when the server has been shut down. A call to a unary handler is
in progress until it returns; and that of a streaming handler as long as the stream is open: until
its client sends no more, or the handler finds an error.

`EtcdLiteServer::Wait` tests `server_` and then calls through it, while the shutdown thread may reset
it. What the main thread does when it has called `Wait` of a server that is not there, or is
destroyed meanwhile, is undefined: it gets nowhere here (`MainPc.lost`).
-/

namespace EtcdLite

open Server Handlers

/-- What `server_` points to. -/
inductive Grpc where
  | null
  /-- A server that takes calls. -/
  | serving
  /-- A server that is in `Shutdown`. -/
  | shuttingDown
  /-- A server that has been shut down. -/
  | shutDown
  deriving DecidableEq

/-- Where the expiration thread stands. -/
inductive CheckPc where
  /-- At the loop's condition. -/
  | load
  /-- In `sleep_for`, until this time. -/
  | sleeping (wake : Int)
  /-- In `CheckExpiration`. -/
  | checking
  | exited
  deriving DecidableEq

/-- Where a thread stands in `EtcdLiteServer::Stop`. -/
inductive StopPc where
  | test
  /-- In `StopExpirationCheck`. -/
  | storeRunning
  | joinCheck
  /-- At the call of `Shutdown`. -/
  | shutdown
  /-- In `Shutdown`. -/
  | awaitCalls
  | wait
  | reset
  | done
  deriving DecidableEq

/-- Where the shutdown thread stands. -/
inductive ShutdownPc where
  /-- At the loop's condition. -/
  | poll
  | stop (pc : StopPc)
  | exited
  deriving DecidableEq

/-- Where the main thread stands. -/
inductive MainPc where
  /-- In `Start`, at `BuildAndStart`. -/
  | build
  /-- In `Start`, in `StartExpirationCheck`. -/
  | loadRunning
  | storeRunning
  | startCheck
  | startShutdown
  /-- In `EtcdLiteServer::Wait`. -/
  | testServer
  /-- At the call of `server_->Wait`. -/
  | callWait
  | wait
  /-- In `server_->Wait`, and there is no such server. -/
  | lost
  | joinShutdown
  /-- `main` has returned, and `g_shutdown_thread` is to be destroyed. -/
  | destroyThread (code : ℕ)
  /-- In `~EtcdLiteServer`. -/
  | stop (code : ℕ) (pc : StopPc)
  /-- In `~LeaseManager`, in `StopExpirationCheck`. -/
  | clearRunning (code : ℕ)
  | joinCheck (code : ℕ)
  | exited (code : ℕ)
  deriving DecidableEq

/-- The process. A thread is `none` when its `std::thread` is not joinable. -/
structure Process where
  /-- The server with the handlers in progress, those of clients and the one of the expiration
  thread. -/
  clients : Handlers.System Server ServerAct Response (Option ℕ)
  /-- The clients whose handlers are in progress. -/
  busy : Finset ℕ
  /-- How many streams are open. -/
  streams : ℕ
  /-- The reading of the steady clock. -/
  clock : Int
  /-- `server_`. -/
  grpc : Grpc
  /-- `running_`. -/
  running : Bool
  /-- `expirationThread_`. -/
  expirationThread : Option CheckPc
  /-- `g_shutdown`. -/
  shutdown : Bool
  /-- `g_shutdown_thread`. -/
  shutdownThread : Option ShutdownPc
  main : MainPc
  /-- `std::terminate` has been called: a joinable `std::thread` was assigned to, or destroyed. -/
  terminated : Bool

/-- What can happen next. -/
inductive ProcessAct where
  /-- The main thread goes on; if it is at `BuildAndStart`, this succeeds or not. -/
  | main (built : Bool)
  /-- The shutdown thread goes on. -/
  | shutdown
  /-- The expiration thread goes on. -/
  | check
  /-- A client makes a request, on a call of its own or on a stream. -/
  | call (c : ℕ) (req : Request)
  /-- The handler of a client goes on. -/
  | resume (c : ℕ)
  /-- A client opens a stream. -/
  | openStream
  /-- A stream ends: its client sends no more; or its handler returns, at an unknown lease, at a
  registration that fails, or at a write that does. -/
  | endStream
  /-- `SignalHandler`. -/
  | signal
  /-- Time passes. -/
  | tick (d : ℕ)

namespace Process

/-- The process at the start of `main`. -/
def start (env : Env) (clock : Int) : Process where
  clients := Handlers.System.start (Server.new env)
  busy := ∅
  streams := 0
  clock := clock
  grpc := .null
  running := false
  expirationThread := none
  shutdown := false
  shutdownThread := none
  main := .build
  terminated := false

/-! ### The threads -/

/-- `expirationThread_.join()`, if it is joinable: none as long as that waits. -/
def joinCheck (y : Process) : Option Process :=
  match y.expirationThread with
  | none => some y
  | some .exited => some { y with expirationThread := none }
  | some _ => none

/-- A thread goes on in `EtcdLiteServer::Stop`. -/
def stopStep (y : Process) : StopPc → Process × StopPc
  | .test => (y, if y.grpc = .null then .done else .storeRunning)
  | .storeRunning => ({ y with running := false }, .joinCheck)
  | .joinCheck =>
    match y.joinCheck with
    | none => (y, .joinCheck)
    | some y => (y, .shutdown)
  | .shutdown => ({ y with grpc := .shuttingDown }, .awaitCalls)
  | .awaitCalls =>
    if y.busy = ∅ ∧ y.streams = 0 then ({ y with grpc := .shutDown }, .wait) else (y, .awaitCalls)
  | .wait => (y, if y.grpc = .shutDown then .reset else .wait)
  | .reset => ({ y with grpc := .null }, .done)
  | .done => (y, .done)

/-- The main thread goes on. -/
def mainStep (y : Process) (built : Bool) : Process :=
  match y.main with
  | .build =>
    if built then { y with grpc := .serving, main := .loadRunning }
    else { y with grpc := .null, main := .destroyThread 1 }
  | .loadRunning => { y with main := if y.running then .startShutdown else .storeRunning }
  | .storeRunning => { y with running := true, main := .startCheck }
  | .startCheck =>
    { y with
      terminated := y.terminated || y.expirationThread.isSome
      expirationThread := some .load
      main := .startShutdown }
  | .startShutdown =>
    { y with
      terminated := y.terminated || y.shutdownThread.isSome
      shutdownThread := some .poll
      main := .testServer }
  | .testServer => { y with main := if y.grpc = .null then .joinShutdown else .callWait }
  | .callWait =>
    -- The shutdown thread may have reset `server_` since the test.
    { y with main := if y.grpc = .null then .lost else .wait }
  | .wait =>
    match y.grpc with
    | .null => { y with main := .lost }
    | .shutDown => { y with main := .joinShutdown }
    | _ => y
  | .lost => y
  | .joinShutdown =>
    match y.shutdownThread with
    | none => { y with main := .destroyThread 0 }
    | some .exited => { y with shutdownThread := none, main := .destroyThread 0 }
    | some _ => y
  | .destroyThread code =>
    { y with
      terminated := y.terminated || y.shutdownThread.isSome
      main := .stop code .test }
  | .stop code .done => { y with main := .clearRunning code }
  | .stop code pc =>
    let (y, pc) := y.stopStep pc
    { y with main := .stop code pc }
  | .clearRunning code => { y with running := false, main := .joinCheck code }
  | .joinCheck code =>
    match y.joinCheck with
    | none => y
    | some y => { y with main := .exited code }
  | .exited _ => y

/-- The shutdown thread goes on. -/
def shutdownStep (y : Process) : Process :=
  match y.shutdownThread with
  | none | some .exited => y
  | some .poll => if y.shutdown then { y with shutdownThread := some (.stop .test) } else y
  | some (.stop .done) => { y with shutdownThread := some .exited }
  | some (.stop pc) =>
    let (y, pc) := y.stopStep pc
    { y with shutdownThread := some (.stop pc) }

/-- The expiration thread goes on. -/
def checkStep (y : Process) : Process :=
  match y.expirationThread with
  | none | some .exited => y
  | some .load =>
    { y with
      expirationThread := some (if y.running then .sleeping (y.clock + 1000000000) else .exited) }
  | some (.sleeping wake) =>
    if wake ≤ y.clock then
      { y with
        clients := y.clients.step handler ServerAct.exec (.call none (.checkExpiration y.clock))
        expirationThread := some .checking }
    else y
  | some .checking =>
    match y.clients.client none with
    | none => { y with expirationThread := some .load }
    | some _ => { y with clients := y.clients.step handler ServerAct.exec (.resume none) }

/-! ### The process -/

/-- The request gets to a handler. A request on a stream does as long as there is one. -/
def admits (y : Process) : Request → Bool
  | .watch _ _ | .leaseKeepAlive _ _ => 0 < y.streams
  | .checkExpiration _ => false
  | _ => y.grpc = .serving

/-- One step. -/
def step (y : Process) : ProcessAct → Process
  | .main built => y.mainStep built
  | .shutdown => y.shutdownStep
  | .check => y.checkStep
  | .call c req =>
    if y.admits req then
      { y with
        clients := y.clients.step handler ServerAct.exec (.call (some c) req)
        busy := insert c y.busy }
    else y
  | .resume c =>
    { y with
      clients := y.clients.step handler ServerAct.exec (.resume (some c))
      busy := if (y.clients.response (some c)).isSome then y.busy.erase c else y.busy }
  | .openStream => if y.grpc = .serving then { y with streams := y.streams + 1 } else y
  | .endStream => { y with streams := y.streams - 1 }
  | .signal => { y with shutdown := true }
  | .tick d => { y with clock := y.clock + d }

end Process

end EtcdLite
