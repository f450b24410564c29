import EtcdLite.Lib.Fairness
import EtcdLite.Model.Process

/-!
# The stages of the process

From the start of `main` to its end the process goes through stages (`Stage`), in this order, and
leaves none out but when the server cannot be built. A stage says where the main thread and the
shutdown thread may stand, whether there is an expiration thread, and what there is of gRPC
(`At`). A step leaves the process in its stage or brings it to the next (`At.step`).
-/

namespace EtcdLite

open Server Handlers

/-- The stages. -/
inductive Stage where
  /-- The server is to be built. -/
  | building
  /-- The expiration thread is to be started. -/
  | starting
  | spawning
  /-- The shutdown thread is to be started. -/
  | started
  /-- The server takes calls, until there is a signal. -/
  | serving
  /-- The expiration thread is to exit. -/
  | joining
  /-- `Shutdown` is to be called. -/
  | closing
  /-- The calls in progress are to end. -/
  | draining
  /-- The gRPC server is to be destroyed. -/
  | drained
  /-- The shutdown thread is to exit, and the main thread to take notice. -/
  | stopped
  /-- `main` has returned, and what it leaves is to be destroyed. -/
  | returned (code : ℕ)

/-- What may come next. -/
def Stage.next : Stage → List Stage
  | .building => [.starting, .returned 1]
  | .starting => [.spawning]
  | .spawning => [.started]
  | .started => [.serving]
  | .serving => [.joining]
  | .joining => [.closing]
  | .closing => [.draining]
  | .draining => [.drained]
  | .drained => [.stopped]
  | .stopped => [.returned 0]
  | .returned _ => []

/-- The exit status, when `main` has returned. -/
def MainPc.code : MainPc → Option ℕ
  | .destroyThread code | .stop code _ | .clearRunning code | .joinCheck code | .exited code =>
    some code
  | _ => none

/-- It falls with each step in `Stop`. -/
def StopPc.rank : StopPc → ℕ
  | .test => 7
  | .storeRunning => 6
  | .joinCheck => 5
  | .shutdown => 4
  | .awaitCalls => 3
  | .wait => 2
  | .reset => 1
  | .done => 0

/-- It falls with each step of the shutdown thread. -/
def ShutdownPc.rank : ShutdownPc → ℕ
  | .poll => 9
  | .stop pc => 1 + pc.rank
  | .exited => 0

/-- It falls with each step of the main thread, and by more than the rank of the shutdown thread
when this is started. -/
def MainPc.rank : MainPc → ℕ
  | .build => 29
  | .loadRunning => 28
  | .storeRunning => 27
  | .startCheck => 26
  | .startShutdown => 25
  | .testServer => 15
  | .callWait => 14
  | .wait => 13
  | .lost => 12
  | .joinShutdown => 12
  | .destroyThread _ => 11
  | .stop _ pc => 3 + pc.rank
  | .clearRunning _ => 2
  | .joinCheck _ => 1
  | .exited _ => 0

namespace Process

/-- It falls with each step of the main thread and of the shutdown thread. -/
def rank (y : Process) : ℕ := y.main.rank + (y.shutdownThread.map ShutdownPc.rank).getD 0

/-- Where the threads stand, and what there is of gRPC. -/
structure Stands (y : Process) (main : Set MainPc) (shutdownThread : Set (Option ShutdownPc))
    (expirationThread : Set (Option CheckPc)) (running : Bool) (grpc : Grpc) : Prop where
  main : y.main ∈ main
  shutdownThread : y.shutdownThread ∈ shutdownThread
  expirationThread : y.expirationThread ∈ expirationThread
  running : y.running = running
  grpc : y.grpc = grpc

/-- There is an expiration thread. -/
def checkThreads : Set (Option CheckPc) := {t | t ≠ none}

/-- There is one, and it has not exited. -/
def liveThreads : Set (Option CheckPc) := {t | t ≠ none ∧ t ≠ some .exited}

/-- The process is at this stage. -/
def At (y : Process) : Stage → Prop
  | .building => y.Stands {.build} {none} {none} false .null
  | .starting => y.Stands {.loadRunning, .storeRunning} {none} {none} false .serving
  | .spawning => y.Stands {.startCheck} {none} {none} true .serving
  | .started => y.Stands {.startShutdown} {none} liveThreads true .serving
  | .serving => y.Stands {.testServer, .callWait, .wait}
      {some .poll, some (.stop .test), some (.stop .storeRunning)} liveThreads true .serving
  | .joining => y.Stands {.testServer, .callWait, .wait}
      {some (.stop .joinCheck)} checkThreads false .serving
  | .closing => y.Stands {.testServer, .callWait, .wait}
      {some (.stop .shutdown)} {none} false .serving
  | .draining => y.Stands {.testServer, .callWait, .wait}
      {some (.stop .awaitCalls)} {none} false .shuttingDown
  | .drained => y.Stands {.testServer, .callWait, .wait, .joinShutdown}
      {some (.stop .wait), some (.stop .reset)} {none} false .shutDown
  | .stopped => y.Stands {.testServer, .callWait, .wait, .lost, .joinShutdown}
      {some (.stop .done), some .exited} {none} false .null
  | .returned code => y.Stands {.destroyThread code, .stop code .test, .stop code .done,
      .clearRunning code, .joinCheck code, .exited code} {none} {none} false .null

variable {y : Process} {st : Stage}

/-- The other steps do not matter. -/
theorem At.congr {z : Process} (h : y.At st) (hmain : z.main = y.main)
    (hshutdown : z.shutdownThread = y.shutdownThread)
    (hcheck : z.expirationThread = y.expirationThread) (hrunning : z.running = y.running)
    (hgrpc : z.grpc = y.grpc) : z.At st := by
  cases st
  all_goals
    obtain ⟨h₁, h₂, h₃, h₄, h₅⟩ := h
    exact ⟨hmain ▸ h₁, hshutdown ▸ h₂, hcheck ▸ h₃, hrunning ▸ h₄, hgrpc ▸ h₅⟩

/-- The main thread moves on. -/
theorem Stands.moveMain {main main' : Set MainPc} {shutdownThread : Set (Option ShutdownPc)}
    {expirationThread : Set (Option CheckPc)} {running : Bool} {grpc : Grpc}
    (h : y.Stands main shutdownThread expirationThread running grpc) {pc : MainPc}
    (hpc : pc ∈ main') :
    Stands { y with main := pc } main' shutdownThread expirationThread running grpc :=
  ⟨hpc, h.shutdownThread, h.expirationThread, h.running, h.grpc⟩

/-- The main thread waits, is lost, or has come to its end. -/
inductive MainWaits (y : Process) : Prop
  | server (hpc : y.main = .wait) (hgrpc : y.grpc ≠ .null ∧ y.grpc ≠ .shutDown)
  | thread (hpc : y.main = .joinShutdown) (hlive : y.shutdownThread ≠ some .exited)
  | lost (hpc : y.main = .lost)
  | exited {code : ℕ} (hpc : y.main = .exited code)

/-- What a step of the main thread can be. -/
inductive MainMoves (y : Process) : Process → Prop
  | waits (hwaits : MainWaits y) : MainMoves y y
  | moves {pc : MainPc} (hcode : pc.code = y.main.code) (hrank : pc.rank < y.main.rank) :
    MainMoves y { y with main := pc }
  | builds (hpc : y.main = .build) : MainMoves y { y with grpc := .serving, main := .loadRunning }
  | fails (hpc : y.main = .build) : MainMoves y { y with main := .destroyThread 1 }
  /-- It stores to `running_`. -/
  | stores {running : Bool} {pc : MainPc} (hcode : pc.code = y.main.code)
    (hrank : pc.rank < y.main.rank) : MainMoves y { y with running := running, main := pc }
  | startsCheck (hpc : y.main = .startCheck) (hnone : y.expirationThread = none) :
    MainMoves y { y with expirationThread := some .load, main := .startShutdown }
  | startsShutdown (hpc : y.main = .startShutdown) (hnone : y.shutdownThread = none) :
    MainMoves y { y with shutdownThread := some .poll, main := .testServer }
  | joinsShutdown (hpc : y.main = .joinShutdown) (hexited : y.shutdownThread = some .exited) :
    MainMoves y { y with shutdownThread := none, main := .destroyThread 0 }

/-- The main thread waits, or the rank falls. -/
theorem MainMoves.waits_or_rank_lt {z : Process} (h : MainMoves y z) :
    z = y ∧ MainWaits y ∨ z.rank < y.rank := by
  cases h with
  | waits hwaits => exact .inl ⟨rfl, hwaits⟩
  | moves hcode hrank => exact .inr (Nat.add_lt_add_right hrank _)
  | builds hpc => simp [rank, hpc, MainPc.rank]
  | fails hpc => simp [rank, hpc, MainPc.rank]
  | stores hcode hrank => exact .inr (Nat.add_lt_add_right hrank _)
  | startsCheck hpc hnone => simp [rank, hpc, MainPc.rank]
  | startsShutdown hpc hnone => simp [rank, hpc, hnone, MainPc.rank, ShutdownPc.rank]
  | joinsShutdown hpc hexited => simp [rank, hpc, hexited, MainPc.rank, ShutdownPc.rank]

/-- What the main thread and the shutdown thread leave alone. -/
structure Rest (y z : Process) : Prop where
  clients : z.clients = y.clients
  busy : z.busy = y.busy
  streams : z.streams = y.streams
  clock : z.clock = y.clock
  shutdown : z.shutdown = y.shutdown

theorem MainMoves.rest {z : Process} (h : MainMoves y z) : Rest y z := by
  cases h <;> exact ⟨rfl, rfl, rfl, rfl, rfl⟩

/-- The main thread goes on to another place. -/
theorem Stands.mainGoes {main main' : Set MainPc} {shutdownThread : Set (Option ShutdownPc)}
    {expirationThread : Set (Option CheckPc)} {running : Bool} {grpc : Grpc} {built : Bool}
    (h : y.Stands main shutdownThread expirationThread running grpc) (pc : MainPc) {pc' : MainPc}
    (hmain : y.main = pc') (hpc : pc ∈ main') (hstep : y.mainStep built = { y with main := pc })
    (hcode : pc.code = pc'.code) (hrank : pc.rank < pc'.rank) : MainMoves y (y.mainStep built) ∧
      (y.mainStep built).Stands main' shutdownThread expirationThread running grpc := by
  subst hmain
  rw [hstep]
  exact ⟨.moves hcode hrank, h.moveMain hpc⟩

/-- In `EtcdLiteServer::Wait` the main thread waits for as long as there is a server that has not
been shut down. -/
theorem Stands.waits {shutdownThread : Set (Option ShutdownPc)}
    {expirationThread : Set (Option CheckPc)} {running : Bool} {grpc : Grpc}
    (h : y.Stands {.testServer, .callWait, .wait} shutdownThread expirationThread running grpc)
    (hgrpc : grpc = .serving ∨ grpc = .shuttingDown) (built : Bool) :
    MainMoves y (y.mainStep built) ∧ (y.mainStep built).Stands {.testServer, .callWait, .wait}
      shutdownThread expirationThread running grpc := by
  have hserver : y.grpc ≠ .null ∧ y.grpc ≠ .shutDown := by
    rw [h.grpc]
    rcases hgrpc with rfl | rfl <;> simp
  rcases h.main with hmain | hmain | hmain
  · refine h.mainGoes .callWait hmain (.inr (.inl rfl)) ?_ rfl (by decide)
    simp [Process.mainStep, hmain, hserver]
  · refine h.mainGoes .wait hmain (.inr (.inr rfl)) ?_ rfl (by decide)
    simp [Process.mainStep, hmain, hserver]
  · have hwait : y.main = .wait := hmain
    have hstep : y.mainStep built = y := by
      rw [Process.mainStep, hwait]
      dsimp only
      split <;> simp_all
    rw [hstep]
    exact ⟨.waits (.server hwait hserver), h⟩

/-- **A step of the main thread.** -/
theorem At.mainStep (h : y.At st) (built : Bool) : MainMoves y (y.mainStep built) ∧
    ((y.mainStep built).At st ∨ ∃ st' ∈ st.next, (y.mainStep built).At st') := by
  cases st with
  | building =>
    have hmain : y.main = .build := h.main
    cases built with
    | true =>
      have hstep : y.mainStep true = { y with grpc := .serving, main := .loadRunning } := by
        simp [Process.mainStep, hmain]
      rw [hstep]
      exact ⟨.builds hmain, .inr ⟨.starting, .head _,
        ⟨.inl rfl, h.shutdownThread, h.expirationThread, h.running, rfl⟩⟩⟩
    | false =>
      have hstep : y.mainStep false = { y with main := .destroyThread 1 } := by
        simp [Process.mainStep, hmain, h.grpc]
      rw [hstep]
      exact ⟨.fails hmain, .inr ⟨.returned 1, .tail _ (.head _), h.moveMain (.inl rfl)⟩⟩
  | starting =>
    rcases h.main with hmain | hmain
    · refine (h.mainGoes .storeRunning hmain (.inr rfl) ?_ rfl (by decide)).imp_right .inl
      simp [Process.mainStep, hmain, h.running]
    · have hpc : y.main = .storeRunning := hmain
      have hstep : y.mainStep built = { y with running := true, main := .startCheck } := by
        simp [Process.mainStep, hpc]
      rw [hstep]
      refine ⟨.stores (by simp [hpc, MainPc.code]) (by simp [hpc, MainPc.rank]), .inr ?_⟩
      exact ⟨.spawning, .head _, rfl, h.shutdownThread, h.expirationThread, rfl, h.grpc⟩
  | spawning =>
    have hmain : y.main = .startCheck := h.main
    have hnone : y.expirationThread = none := h.expirationThread
    have hstep : y.mainStep built =
        { y with expirationThread := some .load, main := .startShutdown } := by
      simp [Process.mainStep, hmain, hnone]
    rw [hstep]
    exact ⟨.startsCheck hmain hnone, .inr ⟨.started, .head _,
      ⟨rfl, h.shutdownThread, by simp [liveThreads], h.running, h.grpc⟩⟩⟩
  | started =>
    have hmain : y.main = .startShutdown := h.main
    have hnone : y.shutdownThread = none := h.shutdownThread
    have hstep : y.mainStep built =
        { y with shutdownThread := some .poll, main := .testServer } := by
      simp [Process.mainStep, hmain, hnone]
    rw [hstep]
    exact ⟨.startsShutdown hmain hnone, .inr ⟨.serving, .head _,
      ⟨.inl rfl, .inl rfl, h.expirationThread, h.running, h.grpc⟩⟩⟩
  | serving => exact (h.waits (.inl rfl) built).imp_right .inl
  | joining => exact (h.waits (.inl rfl) built).imp_right .inl
  | closing => exact (h.waits (.inl rfl) built).imp_right .inl
  | draining => exact (h.waits (.inr rfl) built).imp_right .inl
  | drained =>
    rcases h.main with hmain | hmain | hmain | hmain
    · refine (h.mainGoes .callWait hmain (by simp) ?_ rfl (by decide)).imp_right .inl
      simp [Process.mainStep, hmain, h.grpc]
    · refine (h.mainGoes .wait hmain (by simp) ?_ rfl (by decide)).imp_right .inl
      simp [Process.mainStep, hmain, h.grpc]
    · refine (h.mainGoes .joinShutdown hmain (by simp) ?_ rfl (by decide)).imp_right .inl
      simp [Process.mainStep, hmain, h.grpc]
    · have hjoin : y.main = .joinShutdown := hmain
      have hlive : y.shutdownThread = some (.stop .wait) ∨ y.shutdownThread = some (.stop .reset) :=
        h.shutdownThread
      have hstep : y.mainStep built = y := by
        rcases hlive with hpc | hpc <;> simp [Process.mainStep, hjoin, hpc]
      rw [hstep]
      refine ⟨.waits (.thread hjoin ?_), .inl h⟩
      rcases hlive with hpc | hpc <;> simp [hpc]
  | stopped =>
    rcases h.main with hmain | hmain | hmain | hmain | hmain
    · refine (h.mainGoes .joinShutdown hmain (by simp) ?_ rfl (by decide)).imp_right .inl
      simp [Process.mainStep, hmain, h.grpc]
    · refine (h.mainGoes .lost hmain (by simp) ?_ rfl (by decide)).imp_right .inl
      simp [Process.mainStep, hmain, h.grpc]
    · refine (h.mainGoes .lost hmain (by simp) ?_ rfl (by decide)).imp_right .inl
      simp [Process.mainStep, hmain, h.grpc]
    · have hlost : y.main = .lost := hmain
      have hstep : y.mainStep built = y := by simp [Process.mainStep, hlost]
      rw [hstep]
      exact ⟨.waits (.lost hlost), .inl h⟩
    · have hjoin : y.main = .joinShutdown := hmain
      rcases h.shutdownThread with hpc | hpc
      · have hstep : y.mainStep built = y := by simp [Process.mainStep, hjoin, hpc]
        rw [hstep]
        exact ⟨.waits (.thread hjoin (by simp [hpc])), .inl h⟩
      · have hexited : y.shutdownThread = some .exited := hpc
        have hstep : y.mainStep built =
            { y with shutdownThread := none, main := .destroyThread 0 } := by
          simp [Process.mainStep, hjoin, hexited]
        rw [hstep]
        exact ⟨.joinsShutdown hjoin hexited, .inr ⟨.returned 0, .head _,
          ⟨.inl rfl, rfl, h.expirationThread, h.running, h.grpc⟩⟩⟩
  | returned code =>
    have hshutdown : y.shutdownThread = none := h.shutdownThread
    have hcheck : y.expirationThread = none := h.expirationThread
    rcases h.main with hmain | hmain | hmain | hmain | hmain | hmain
    · refine (h.mainGoes (.stop code .test) hmain (by simp) ?_ rfl ?_).imp_right .inl
      · simp [Process.mainStep, hmain, hshutdown]
      · simp [MainPc.rank, StopPc.rank]
    · refine (h.mainGoes (.stop code .done) hmain (by simp) ?_ rfl ?_).imp_right .inl
      · simp [Process.mainStep, hmain, stopStep, h.grpc]
      · simp [MainPc.rank, StopPc.rank]
    · refine (h.mainGoes (.clearRunning code) hmain (by simp) ?_ rfl ?_).imp_right .inl
      · simp [Process.mainStep, hmain]
      · simp [MainPc.rank, StopPc.rank]
    · have hstep : y.mainStep built = { y with running := false, main := .joinCheck code } := by
        simp [Process.mainStep, hmain]
      rw [hstep]
      refine ⟨.stores (by simp [hmain, MainPc.code]) (by simp [hmain, MainPc.rank]), .inl ?_⟩
      exact ⟨by simp, h.shutdownThread, h.expirationThread, rfl, h.grpc⟩
    · refine (h.mainGoes (.exited code) hmain (by simp) ?_ rfl ?_).imp_right .inl
      · simp [Process.mainStep, hmain, Process.joinCheck, hcheck]
      · simp [MainPc.rank]
    · have hstep : y.mainStep built = y := by
        simp [Process.mainStep, Set.mem_singleton_iff.mp hmain]
      rw [hstep]
      exact ⟨.waits (.exited hmain), .inl h⟩

/-! ### The shutdown thread -/

/-- The shutdown thread waits, has come to its end, or is not there. -/
inductive ShutdownWaits (y : Process) : Prop
  | none (hnone : y.shutdownThread = none)
  | signal (hpc : y.shutdownThread = some .poll) (hsignal : y.shutdown = false)
  | thread (hpc : y.shutdownThread = some (.stop .joinCheck))
    (hlive : y.expirationThread ≠ some .exited)
  | calls (hpc : y.shutdownThread = some (.stop .awaitCalls))
    (hcalls : ¬ (y.busy = ∅ ∧ y.streams = 0))
  | exited (hpc : y.shutdownThread = some .exited)

/-- What a step of the shutdown thread can be. -/
inductive ShutdownMoves (y : Process) : Process → Prop
  | waits (hwaits : ShutdownWaits y) : ShutdownMoves y y
  | moves {pc pc' : ShutdownPc} (hpc : y.shutdownThread = some pc)
    (hsignal : pc = .poll → y.shutdown = true) (hrank : pc'.rank < pc.rank) :
    ShutdownMoves y { y with shutdownThread := some pc' }
  | stores (hpc : y.shutdownThread = some (.stop .storeRunning)) :
    ShutdownMoves y { y with running := false, shutdownThread := some (.stop .joinCheck) }
  | joinsCheck (hpc : y.shutdownThread = some (.stop .joinCheck))
    (hexited : y.expirationThread = some .exited) :
    ShutdownMoves y { y with expirationThread := none, shutdownThread := some (.stop .shutdown) }
  | closes (hpc : y.shutdownThread = some (.stop .shutdown)) :
    ShutdownMoves y { y with grpc := .shuttingDown, shutdownThread := some (.stop .awaitCalls) }
  | drains (hpc : y.shutdownThread = some (.stop .awaitCalls))
    (hquiet : y.busy = ∅ ∧ y.streams = 0) :
    ShutdownMoves y { y with grpc := .shutDown, shutdownThread := some (.stop .wait) }
  | resets (hpc : y.shutdownThread = some (.stop .reset)) (hgrpc : y.grpc = .shutDown) :
    ShutdownMoves y { y with grpc := .null, shutdownThread := some (.stop .done) }

/-- The shutdown thread waits, or the rank falls. -/
theorem ShutdownMoves.waits_or_rank_lt {z : Process} (h : ShutdownMoves y z) :
    z = y ∧ ShutdownWaits y ∨ z.rank < y.rank := by
  cases h with
  | waits hwaits => exact .inl ⟨rfl, hwaits⟩
  | moves hpc hsignal hrank =>
    right
    simpa [rank, hpc] using hrank
  | stores hpc => simp [rank, hpc, ShutdownPc.rank, StopPc.rank]
  | joinsCheck hpc hexited => simp [rank, hpc, ShutdownPc.rank, StopPc.rank]
  | closes hpc => simp [rank, hpc, ShutdownPc.rank, StopPc.rank]
  | drains hpc hquiet => simp [rank, hpc, ShutdownPc.rank, StopPc.rank]
  | resets hpc hgrpc => simp [rank, hpc, ShutdownPc.rank, StopPc.rank]

theorem ShutdownMoves.rest {z : Process} (h : ShutdownMoves y z) : Rest y z := by
  cases h <;> exact ⟨rfl, rfl, rfl, rfl, rfl⟩

/-- The shutdown thread moves on. -/
theorem Stands.moveShutdown {main : Set MainPc}
    {shutdownThread shutdownThread' : Set (Option ShutdownPc)}
    {expirationThread : Set (Option CheckPc)} {running : Bool} {grpc : Grpc}
    (h : y.Stands main shutdownThread expirationThread running grpc) {pc : Option ShutdownPc}
    (hpc : pc ∈ shutdownThread') :
    Stands { y with shutdownThread := pc } main shutdownThread' expirationThread running grpc :=
  ⟨h.main, hpc, h.expirationThread, h.running, h.grpc⟩

/-- There is no shutdown thread to go on. -/
theorem Stands.shutdownStep_eq {main : Set MainPc} {expirationThread : Set (Option CheckPc)}
    {running : Bool} {grpc : Grpc} (h : y.Stands main {none} expirationThread running grpc) :
    y.shutdownStep = y := by
  rw [Process.shutdownStep, Set.mem_singleton_iff.mp h.shutdownThread]

/-- **A step of the shutdown thread.** -/
theorem At.shutdownStep (h : y.At st) : ShutdownMoves y y.shutdownStep ∧
    (y.shutdownStep.At st ∨ ∃ st' ∈ st.next, y.shutdownStep.At st') := by
  cases st with
  | building | starting | spawning | started | returned code =>
    rw [h.shutdownStep_eq]
    exact ⟨.waits (.none h.shutdownThread), .inl h⟩
  | serving =>
    rcases h.shutdownThread with hpc | hpc | hpc
    · by_cases hshutdown : y.shutdown = true
      · have hstep : y.shutdownStep = { y with shutdownThread := some (.stop .test) } := by
          simp [Process.shutdownStep, hpc, hshutdown]
        rw [hstep]
        exact ⟨.moves hpc (fun _ => hshutdown) (by decide), .inl (h.moveShutdown (.inr (.inl rfl)))⟩
      · have hstep : y.shutdownStep = y := by
          simp [Process.shutdownStep, hpc, hshutdown]
        rw [hstep]
        exact ⟨.waits (.signal hpc (Bool.eq_false_iff.mpr hshutdown)), .inl h⟩
    · have hstep : y.shutdownStep = { y with shutdownThread := some (.stop .storeRunning) } := by
        simp [Process.shutdownStep, hpc, stopStep, h.grpc]
      rw [hstep]
      exact ⟨.moves hpc (by simp) (by decide), .inl (h.moveShutdown (.inr (.inr rfl)))⟩
    · have hstores : y.shutdownThread = some (.stop .storeRunning) := hpc
      have hstep : y.shutdownStep =
          { y with running := false, shutdownThread := some (.stop .joinCheck) } := by
        simp [Process.shutdownStep, hstores, stopStep]
      rw [hstep]
      exact ⟨.stores hstores, .inr ⟨.joining, .head _,
        ⟨h.main, rfl, h.expirationThread.1, rfl, h.grpc⟩⟩⟩
  | joining =>
    have hpc : y.shutdownThread = some (.stop .joinCheck) := h.shutdownThread
    have hcheck : y.expirationThread ≠ none := h.expirationThread
    by_cases hexited : y.expirationThread = some .exited
    · have hstep : y.shutdownStep =
          { y with expirationThread := none, shutdownThread := some (.stop .shutdown) } := by
        simp [Process.shutdownStep, hpc, stopStep, Process.joinCheck, hexited]
      rw [hstep]
      exact ⟨.joinsCheck hpc hexited, .inr ⟨.closing, .head _, ⟨h.main, rfl, rfl, h.running, h.grpc⟩⟩⟩
    · have hwaits : y.joinCheck = none := by
        rw [Process.joinCheck]
        split <;> simp_all
      have hstep : y.shutdownStep = y := by
        simp only [Process.shutdownStep, hpc, stopStep, hwaits]
        rw [← hpc]
      rw [hstep]
      exact ⟨.waits (.thread hpc hexited), .inl h⟩
  | closing =>
    have hpc : y.shutdownThread = some (.stop .shutdown) := h.shutdownThread
    have hstep : y.shutdownStep =
        { y with grpc := .shuttingDown, shutdownThread := some (.stop .awaitCalls) } := by
      simp [Process.shutdownStep, hpc, stopStep]
    rw [hstep]
    exact ⟨.closes hpc, .inr ⟨.draining, .head _, ⟨h.main, rfl, h.expirationThread, h.running, rfl⟩⟩⟩
  | draining =>
    have hpc : y.shutdownThread = some (.stop .awaitCalls) := h.shutdownThread
    by_cases hquiet : y.busy = ∅ ∧ y.streams = 0
    · have hstep : y.shutdownStep =
          { y with grpc := .shutDown, shutdownThread := some (.stop .wait) } := by
        simp [Process.shutdownStep, hpc, stopStep, hquiet]
      rw [hstep]
      refine ⟨.drains hpc hquiet, .inr ⟨.drained, .head _,
        ⟨?_, .inl rfl, h.expirationThread, h.running, rfl⟩⟩⟩
      rcases h.main with hmain | hmain | hmain
      · exact .inl hmain
      · exact .inr (.inl hmain)
      · exact .inr (.inr (.inl hmain))
    · have hstep : y.shutdownStep = y := by
        simp only [Process.shutdownStep, hpc, stopStep, hquiet]
        rw [if_neg not_false, ← hpc]
      rw [hstep]
      exact ⟨.waits (.calls hpc hquiet), .inl h⟩
  | drained =>
    rcases h.shutdownThread with hpc | hpc
    · have hstep : y.shutdownStep = { y with shutdownThread := some (.stop .reset) } := by
        simp [Process.shutdownStep, hpc, stopStep, h.grpc]
      rw [hstep]
      exact ⟨.moves hpc (by simp) (by decide), .inl (h.moveShutdown (.inr rfl))⟩
    · have hreset : y.shutdownThread = some (.stop .reset) := hpc
      have hstep : y.shutdownStep =
          { y with grpc := .null, shutdownThread := some (.stop .done) } := by
        simp [Process.shutdownStep, hreset, stopStep]
      rw [hstep]
      refine ⟨.resets hreset h.grpc, .inr ⟨.stopped, .head _,
        ⟨?_, .inl rfl, h.expirationThread, h.running, rfl⟩⟩⟩
      rcases h.main with hmain | hmain | hmain | hmain
      · exact .inl hmain
      · exact .inr (.inl hmain)
      · exact .inr (.inr (.inl hmain))
      · exact .inr (.inr (.inr (.inr hmain)))
  | stopped =>
    rcases h.shutdownThread with hpc | hpc
    · have hstep : y.shutdownStep = { y with shutdownThread := some .exited } := by
        simp [Process.shutdownStep, hpc]
      rw [hstep]
      exact ⟨.moves hpc (by simp) (by decide), .inl (h.moveShutdown (.inr rfl))⟩
    · have hstep : y.shutdownStep = y := by
        simp [Process.shutdownStep, Set.mem_singleton_iff.mp hpc]
      rw [hstep]
      exact ⟨.waits (.exited hpc), .inl h⟩

/-! ### The expiration thread -/

/-- What a step of the expiration thread can be. -/
inductive CheckMoves (y : Process) : Process → Prop
  /-- There is none, or it has come to its end. -/
  | ends (hthread : y.expirationThread = none ∨ y.expirationThread = some .exited) : CheckMoves y y
  | sleeps {wake : Int} (hthread : y.expirationThread = some (.sleeping wake))
    (hwake : ¬ wake ≤ y.clock) : CheckMoves y y
  | loads (hthread : y.expirationThread = some .load) :
    CheckMoves y { y with
      expirationThread := some (if y.running then .sleeping (y.clock + 1000000000) else .exited) }
  | wakes {wake : Int} (hthread : y.expirationThread = some (.sleeping wake))
    (hwake : wake ≤ y.clock) :
    CheckMoves y { y with
      clients := y.clients.step handler ServerAct.exec (.call none (.checkExpiration y.clock))
      expirationThread := some .checking }
  | resumes (hthread : y.expirationThread = some .checking) (hbusy : y.clients.client none ≠ none) :
    CheckMoves y { y with clients := y.clients.step handler ServerAct.exec (.resume none) }
  | returns (hthread : y.expirationThread = some .checking) (hidle : y.clients.client none = none) :
    CheckMoves y { y with expirationThread := some .load }

/-- **A step of the expiration thread.** -/
theorem checkStep_moves (y : Process) : CheckMoves y y.checkStep := by
  rw [checkStep]
  split
  case h_1 hnone => exact .ends (.inl hnone)
  case h_2 hexited => exact .ends (.inr hexited)
  case h_3 hload => exact .loads hload
  case h_4 wake hsleeping =>
    split_ifs with hwake
    · exact .wakes hsleeping hwake
    · exact .sleeps hsleeping hwake
  case h_5 hchecking =>
    split
    case h_1 hidle => exact .returns hchecking hidle
    case h_2 prog hprog => exact .resumes hchecking (by simp [hprog])

theorem At.checkStep (h : y.At st) : y.checkStep.At st := by
  have hmoves := y.checkStep_moves
  generalize y.checkStep = z at hmoves
  -- There is a thread before and after, or neither before nor after.
  have hboth : ∀ {thread : CheckPc}, y.expirationThread ≠ none →
      thread ≠ .exited ∨ y.running = false →
      At { y with expirationThread := some thread } st := by
    intro thread hthere hexited
    cases st with
    | started | serving =>
      refine ⟨h.main, h.shutdownThread, ⟨by simp, ?_⟩, h.running, h.grpc⟩
      simpa [h.running] using hexited
    | joining => exact ⟨h.main, h.shutdownThread, by simp [checkThreads], h.running, h.grpc⟩
    | _ => exact absurd h.expirationThread hthere
  cases hmoves with
  | ends hthread => exact h
  | sleeps hthread hwake => exact h
  | loads hthread =>
    refine hboth (by simp [hthread]) ?_
    cases y.running <;> simp
  | wakes hthread hwake =>
    exact (hboth (by simp [hthread]) (.inl (by simp))).congr rfl rfl rfl rfl rfl
  | resumes hthread hbusy => exact h.congr rfl rfl rfl rfl rfl
  | returns hthread hidle => exact hboth (by simp [hthread]) (.inl (by simp))

/-! ### Any step -/

/-- A step that is none of the main thread and of the shutdown thread. -/
theorem At.step_other (h : y.At st) {a : ProcessAct} (hmain : ∀ built, a ≠ .main built)
    (hshutdown : a ≠ .shutdown) : (y.step a).At st ∧ (y.step a).main = y.main ∧
      (y.step a).shutdownThread = y.shutdownThread := by
  cases a with
  | main built => exact absurd rfl (hmain built)
  | shutdown => exact absurd rfl hshutdown
  | check =>
    have hstage := h.checkStep
    have hmoves := y.checkStep_moves
    rw [Process.step]
    generalize y.checkStep = z at hstage hmoves
    refine ⟨hstage, ?_, ?_⟩ <;> cases hmoves <;> rfl
  | call c req =>
    rw [Process.step]
    split_ifs
    · exact ⟨h.congr rfl rfl rfl rfl rfl, rfl, rfl⟩
    · exact ⟨h, rfl, rfl⟩
  | openStream =>
    rw [Process.step]
    split_ifs
    · exact ⟨h.congr rfl rfl rfl rfl rfl, rfl, rfl⟩
    · exact ⟨h, rfl, rfl⟩
  | resume c => exact ⟨h.congr rfl rfl rfl rfl rfl, rfl, rfl⟩
  | endStream => exact ⟨h.congr rfl rfl rfl rfl rfl, rfl, rfl⟩
  | signal => exact ⟨h.congr rfl rfl rfl rfl rfl, rfl, rfl⟩
  | tick d => exact ⟨h.congr rfl rfl rfl rfl rfl, rfl, rfl⟩

/-- **A step leaves the process in its stage, or brings it to the next.** -/
theorem At.step (h : y.At st) (a : ProcessAct) :
    (y.step a).At st ∨ ∃ st' ∈ st.next, (y.step a).At st' := by
  cases a with
  | main built => exact (h.mainStep built).2
  | shutdown => exact h.shutdownStep.2
  | _ => exact .inl (h.step_other (by simp) (by simp)).1

/-- **A step leaves the process in its stage and the two threads where they stand, or the rank
falls.** -/
theorem At.step_rank (h : y.At st) (a : ProcessAct) :
    ((y.step a).At st ∧ (y.step a).main = y.main ∧ (y.step a).shutdownThread = y.shutdownThread) ∨
      (y.step a).rank < y.rank := by
  cases a with
  | main built =>
    rcases (h.mainStep built).1.waits_or_rank_lt with ⟨hsame, -⟩ | hlt
    · rw [Process.step, hsame]
      exact .inl ⟨h, rfl, rfl⟩
    · exact .inr hlt
  | shutdown =>
    rcases h.shutdownStep.1.waits_or_rank_lt with ⟨hsame, -⟩ | hlt
    · rw [Process.step, hsame]
      exact .inl ⟨h, rfl, rfl⟩
    · exact .inr hlt
  | _ => exact .inl (h.step_other (by simp) (by simp))

theorem At.step_rank_le (h : y.At st) (a : ProcessAct) : (y.step a).rank ≤ y.rank := by
  rcases h.step_rank a with ⟨-, hmain, hshutdown⟩ | hlt
  · rw [rank, rank, hmain, hshutdown]
  · exact hlt.le

/-- Nothing else sets `g_shutdown`, and nothing clears it. -/
theorem At.step_shutdown_eq (h : y.At st) {a : ProcessAct} (ha : a ≠ .signal) :
    (y.step a).shutdown = y.shutdown := by
  cases a with
  | main built => exact (h.mainStep built).1.rest.shutdown
  | shutdown => exact h.shutdownStep.1.rest.shutdown
  | check =>
    have hmoves := y.checkStep_moves
    rw [Process.step]
    generalize y.checkStep = z at hmoves
    cases hmoves <;> rfl
  | call c req =>
    rw [Process.step]
    split_ifs <;> rfl
  | openStream =>
    rw [Process.step]
    split_ifs <;> rfl
  | resume c => rfl
  | endStream => rfl
  | signal => exact absurd rfl ha
  | tick d => rfl

/-- A signal is not forgotten. -/
theorem At.step_shutdown (h : y.At st) (hsignal : y.shutdown = true) (a : ProcessAct) :
    (y.step a).shutdown = true := by
  cases a with
  | signal => rfl
  | _ => exact (h.step_shutdown_eq (by simp)).trans hsignal

end Process

end EtcdLite
