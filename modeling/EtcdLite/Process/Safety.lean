import EtcdLite.Process.Stages

/-!
# How the process ends

In every run, whatever the threads, the clients and the signals do and in whatever order:
`std::terminate` is never called; and when the process exits, no thread and no handler is at work any
more, no stream is open, and there is no gRPC server. It exits with status 0 after a signal only
(`exits_clean`). The main thread calls `Wait` of a server that is not there (`MainPc.lost`) in runs
only in which the shutdown thread resets `server_` while the main thread is between its test of
`server_` and the end of its wait (`Timely`); and there are such runs (`lost_reachable`).
-/

namespace EtcdLite

open Server Handlers

namespace Process

/-- The state a run leads to. -/
abbrev run (y : Process) (acts : List ProcessAct) : Process := Run.final step y acts

/-- What holds of the process at all times. -/
structure Orderly (y : Process) : Prop where
  stage : ∃ st, y.At st
  alive : y.terminated = false
  busy : ∀ c, y.clients.client (some c) = none ↔ c ∉ y.busy
  /-- Leases are checked by the expiration thread only. -/
  checking : y.clients.client none ≠ none → y.expirationThread = some .checking
  /-- No call is in progress before the server is built, nor after it has been shut down. -/
  quiet : y.grpc = .null ∨ y.grpc = .shutDown → y.busy = ∅ ∧ y.streams = 0
  /-- Nothing is stopped before a signal. -/
  signalled : ∀ pc, y.shutdownThread = some pc → pc ≠ .poll → y.shutdown = true
  success : y.main.code = some 0 → y.shutdown = true

/-- The start of `main`. -/
theorem orderly_start (env : Env) (clock : Int) : Orderly (start env clock) where
  stage := ⟨.building, rfl, rfl, rfl, rfl, rfl⟩
  alive := rfl
  busy := by simp [start, Handlers.System.start]
  checking := by simp [start, Handlers.System.start]
  quiet := by simp [start]
  signalled := by simp [start]
  success := by simp [start, MainPc.code]

namespace Orderly

variable {y : Process}

theorem mainStep (h : Orderly y) (built : Bool) : Orderly (y.mainStep built) := by
  obtain ⟨st, hst⟩ := h.stage
  obtain ⟨hmoves, hnext⟩ := hst.mainStep built
  have hstage : ∃ st', (y.mainStep built).At st' := by
    rcases hnext with hsame | ⟨st', -, hnext⟩
    · exact ⟨st, hsame⟩
    · exact ⟨st', hnext⟩
  generalize y.mainStep built = z at hmoves hstage
  obtain ⟨-, alive, busy, checking, quiet, signalled, success⟩ := h
  cases hmoves with
  | waits _ => exact ⟨hstage, alive, busy, checking, quiet, signalled, success⟩
  | moves hcode _ =>
    exact ⟨hstage, alive, busy, checking, quiet, signalled, fun h => success (hcode ▸ h)⟩
  | builds _ =>
    exact ⟨hstage, alive, busy, checking, by simp, signalled, by simp [MainPc.code]⟩
  | fails _ => exact ⟨hstage, alive, busy, checking, quiet, signalled, by simp [MainPc.code]⟩
  | stores hcode _ =>
    exact ⟨hstage, alive, busy, checking, quiet, signalled, fun h => success (hcode ▸ h)⟩
  | startsCheck hpc hnone =>
    refine ⟨hstage, alive, busy, fun h => ?_, quiet, signalled, by simp [MainPc.code]⟩
    cases hnone.symm.trans (checking h)
  | startsShutdown hpc hnone =>
    refine ⟨hstage, alive, busy, checking, quiet, fun pc h hpoll => ?_, by simp [MainPc.code]⟩
    exact absurd (Option.some.inj h).symm hpoll
  | joinsShutdown _ hexited =>
    exact ⟨hstage, alive, busy, checking, quiet, by simp,
      fun _ => signalled _ hexited (by simp)⟩

theorem shutdownStep (h : Orderly y) : Orderly y.shutdownStep := by
  obtain ⟨st, hst⟩ := h.stage
  obtain ⟨hmoves, hnext⟩ := hst.shutdownStep
  have hstage : ∃ st', y.shutdownStep.At st' := by
    rcases hnext with hsame | ⟨st', -, hnext⟩
    · exact ⟨st, hsame⟩
    · exact ⟨st', hnext⟩
  generalize y.shutdownStep = z at hmoves hstage
  obtain ⟨-, alive, busy, checking, quiet, signalled, success⟩ := h
  cases hmoves with
  | waits _ => exact ⟨hstage, alive, busy, checking, quiet, signalled, success⟩
  | @moves pc pc' hpc hsignal _ =>
    refine ⟨hstage, alive, busy, checking, quiet, fun _ _ _ => ?_, success⟩
    by_cases hpoll : pc = .poll
    · exact hsignal hpoll
    · exact signalled _ hpc hpoll
  | stores hpc =>
    exact ⟨hstage, alive, busy, checking, quiet, fun _ _ _ => signalled _ hpc (by simp), success⟩
  | joinsCheck hpc hexited =>
    refine ⟨hstage, alive, busy, fun h => ?_, quiet, fun _ _ _ => signalled _ hpc (by simp), success⟩
    cases hexited.symm.trans (checking h)
  | closes hpc =>
    exact ⟨hstage, alive, busy, checking, by simp, fun _ _ _ => signalled _ hpc (by simp), success⟩
  | drains hpc hquiet =>
    exact ⟨hstage, alive, busy, checking, fun _ => hquiet, fun _ _ _ => signalled _ hpc (by simp),
      success⟩
  | resets hpc hgrpc =>
    exact ⟨hstage, alive, busy, checking, fun _ => quiet (.inr hgrpc),
      fun _ _ _ => signalled _ hpc (by simp), success⟩

theorem checkStep (h : Orderly y) : Orderly y.checkStep := by
  obtain ⟨st, hst⟩ := h.stage
  have hstage : ∃ st', y.checkStep.At st' := ⟨st, hst.checkStep⟩
  have hmoves := y.checkStep_moves
  generalize y.checkStep = z at hmoves hstage
  cases hmoves with
  | ends _ => exact h
  | sleeps _ _ => exact h
  | loads hthread =>
    refine ⟨hstage, h.alive, h.busy, fun hbusy => ?_, h.quiet, h.signalled, h.success⟩
    cases hthread.symm.trans (h.checking hbusy)
  | wakes _ _ =>
    refine ⟨hstage, h.alive, fun c => ?_, fun _ => rfl, h.quiet, h.signalled, h.success⟩
    rw [Handlers.System.client_call_eq_none, h.busy]
    simp
  | resumes hthread _ =>
    refine ⟨hstage, h.alive, fun c => ?_, fun _ => hthread, h.quiet, h.signalled, h.success⟩
    rw [Handlers.System.client_resume_eq_none, h.busy]
    simp
  | returns _ hidle =>
    exact ⟨hstage, h.alive, h.busy, fun hbusy => absurd hidle hbusy, h.quiet, h.signalled, h.success⟩

/-- A call that is admitted is not made too early or too late. -/
theorem admits (h : Orderly y) {req : Request} (hreq : y.admits req = true) :
    y.grpc ≠ .null ∧ y.grpc ≠ .shutDown := by
  have hstreams : 0 < y.streams → y.grpc ≠ .null ∧ y.grpc ≠ .shutDown := by
    intro hpos
    constructor <;> intro hgrpc
    · exact hpos.ne' (h.quiet (.inl hgrpc)).2
    · exact hpos.ne' (h.quiet (.inr hgrpc)).2
  have hserving : y.grpc = .serving → y.grpc ≠ .null ∧ y.grpc ≠ .shutDown := by
    intro hgrpc
    simp [hgrpc]
  cases req with
  | watch sid r => exact hstreams (of_decide_eq_true hreq)
  | leaseKeepAlive now r => exact hstreams (of_decide_eq_true hreq)
  | checkExpiration now => cases hreq
  | _ => exact hserving (of_decide_eq_true hreq)

/-- **Every step keeps the process orderly.** -/
theorem step (h : Orderly y) (a : ProcessAct) : Orderly (y.step a) := by
  obtain ⟨st, hst⟩ := h.stage
  have hstage : ∃ st', (y.step a).At st' := by
    rcases hst.step a with hsame | ⟨st', -, hnext⟩
    · exact ⟨st, hsame⟩
    · exact ⟨st', hnext⟩
  cases a with
  | main built => exact h.mainStep built
  | shutdown => exact h.shutdownStep
  | check => exact h.checkStep
  | call c req =>
    rw [Process.step] at hstage ⊢
    split_ifs with hreq
    · rw [if_pos hreq] at hstage
      obtain ⟨hnull, hdown⟩ := h.admits hreq
      refine ⟨hstage, h.alive, fun c' => ?_, fun hcheck => h.checking fun hidle => ?_, ?_,
        h.signalled, h.success⟩
      · rw [Handlers.System.client_call_eq_none, h.busy]
        simp [eq_comm]
      · rw [Ne, Handlers.System.client_call_eq_none] at hcheck
        exact hcheck ⟨by simp, hidle⟩
      · rintro (hgrpc | hgrpc)
        · exact absurd hgrpc hnull
        · exact absurd hgrpc hdown
    · exact h
  | resume c =>
    refine ⟨hstage, h.alive, fun c' => ?_, fun hcheck => h.checking fun hidle => ?_,
      fun hgrpc => ?_, h.signalled, h.success⟩
    · show (y.clients.step handler ServerAct.exec (.resume (some c))).client (some c') = none ↔
        c' ∉ if (y.clients.response (some c)).isSome then y.busy.erase c else y.busy
      rw [Handlers.System.client_resume_eq_none, h.busy]
      split_ifs with hreturns <;> simp [hreturns, imp_iff_not_or, or_comm]
    · change (y.clients.step handler ServerAct.exec (.resume (some c))).client none ≠ none at hcheck
      rw [Ne, Handlers.System.client_resume_eq_none] at hcheck
      exact hcheck (.inl hidle)
    · obtain ⟨hbusy, hstreams⟩ := h.quiet hgrpc
      refine ⟨?_, hstreams⟩
      show (if (y.clients.response (some c)).isSome then y.busy.erase c else y.busy) = ∅
      simp [hbusy]
  | openStream =>
    rw [Process.step] at hstage ⊢
    split_ifs with hserving
    · rw [if_pos hserving] at hstage
      refine ⟨hstage, h.alive, h.busy, h.checking, ?_, h.signalled, h.success⟩
      simp [hserving]
    · exact h
  | endStream =>
    refine ⟨hstage, h.alive, h.busy, h.checking, fun hgrpc => ?_, h.signalled, h.success⟩
    obtain ⟨hbusy, hstreams⟩ := h.quiet hgrpc
    refine ⟨hbusy, ?_⟩
    show y.streams - 1 = 0
    rw [hstreams]
  | signal => exact ⟨hstage, h.alive, h.busy, h.checking, h.quiet, fun _ _ _ => rfl, fun _ => rfl⟩
  | tick d => exact ⟨hstage, h.alive, h.busy, h.checking, h.quiet, h.signalled, h.success⟩

theorem run (h : Orderly y) (acts : List ProcessAct) : Orderly (y.run acts) :=
  Run.invariant Process.step (fun _ a h => h.step a) h acts

end Orderly

/-! ### The call of a server that is not there -/

/-- The step does not reset `server_` while the main thread is between its test of `server_` and the
return of `server_->Wait`. -/
def Timely (y : Process) : ProcessAct → Prop
  | .shutdown => y.shutdownThread = some (.stop .reset) → y.main ≠ .callWait ∧ y.main ≠ .wait
  | _ => True

instance (y : Process) : DecidablePred (Timely y)
  | .shutdown => inferInstanceAs (Decidable (_ → _))
  | .main _ | .check | .call _ _ | .resume _ | .openStream | .endStream | .signal | .tick _ =>
    .isTrue trivial

/-- `server_` has been reset, and the main thread calls it all the same. -/
def Caught (y : Process) : Prop :=
  y.grpc = .null ∧ (y.main = .callWait ∨ y.main = .wait ∨ y.main = .lost)

section Caught

variable {y z : Process} {st : Stage}

/-- The stage says what there is of gRPC. -/
theorem At.grpc_eq (h : y.At st) (h' : z.At st) : z.grpc = y.grpc := by
  cases st <;> exact h'.grpc.trans h.grpc.symm

/-- There is a server until the shutdown thread has reset it. -/
theorem At.grpc_ne_null (h : y.At st) {pc : StopPc} (hpc : y.shutdownThread = some (.stop pc))
    (hreset : pc ≠ .done) : y.grpc ≠ .null := by
  cases st
  all_goals
    have hthread := h.shutdownThread
    have hgrpc := h.grpc
    simp_all

/-- The main thread is not lost as long as there is a server. -/
theorem At.main_ne_lost (h : y.At st) (hgrpc : y.grpc ≠ .null) : y.main ≠ .lost := by
  intro hlost
  cases st
  all_goals
    have hmain := h.main
    have hnull := h.grpc
    simp_all

theorem caught_mainStep (y : Process) (built : Bool) : Caught (y.mainStep built) ↔ Caught y := by
  rw [Process.mainStep]
  cases hpc : y.main with
  | build => cases built <;> simp [Caught, hpc]
  | loadRunning => cases y.running <;> simp [Caught, hpc]
  | testServer | callWait => by_cases hgrpc : y.grpc = .null <;> simp [Caught, hpc, hgrpc]
  | wait => cases hgrpc : y.grpc <;> simp [Caught, hpc, hgrpc]
  | joinShutdown =>
    dsimp only
    split <;> simp [Caught, hpc]
  | stop code pc => cases pc <;> simp [Caught, hpc]
  | joinCheck code =>
    dsimp only
    split <;> simp [Caught, hpc]
  | _ => simp [Caught, hpc]

theorem Orderly.caught_shutdownStep (h : Orderly y) :
    ¬ Caught y.shutdownStep ↔ ¬ Caught y ∧ Timely y .shutdown := by
  obtain ⟨st, hst⟩ := h.stage
  by_cases hreset : y.shutdownThread = some (.stop .reset)
  · have hgrpc := hst.grpc_ne_null hreset (by simp)
    have hstep : y.shutdownStep =
        { y with grpc := .null, shutdownThread := some (.stop .done) } := by
      simp [Process.shutdownStep, hreset, stopStep]
    rw [hstep]
    simp [Caught, Timely, hreset, hgrpc, hst.main_ne_lost hgrpc]
  · have hsame : Caught y.shutdownStep ↔ Caught y := by
      have hmoves := hst.shutdownStep.1
      generalize y.shutdownStep = z at hmoves
      cases hmoves with
      | closes hpc => simp [Caught, hst.grpc_ne_null hpc (by simp)]
      | drains hpc _ => simp [Caught, hst.grpc_ne_null hpc (by simp)]
      | resets hpc _ => exact absurd hpc hreset
      | _ => exact Iff.rfl
    simp [hsame, Timely, hreset]

/-- **The main thread is caught by a step that is not timely**, and then for good. -/
theorem Orderly.caught_step (h : Orderly y) (a : ProcessAct) :
    ¬ Caught (y.step a) ↔ ¬ Caught y ∧ Timely y a := by
  have hother : (∀ built, a ≠ .main built) → a ≠ .shutdown →
      (¬ Caught (y.step a) ↔ ¬ Caught y) := by
    intro hmain hshutdown
    obtain ⟨st, hst⟩ := h.stage
    obtain ⟨hst', hsame, -⟩ := hst.step_other hmain hshutdown
    rw [Caught, hst.grpc_eq hst', hsame, ← Caught]
  cases a with
  | main built => simp [Process.step, caught_mainStep, Timely]
  | shutdown => exact h.caught_shutdownStep
  | _ => exact (hother (by simp) (by simp)).trans (and_iff_left trivial).symm

/-- In a run whose steps are timely it is not, and only in these. -/
theorem caught_run (env : Env) (clock : Int) (acts : List ProcessAct) :
    ¬ Caught ((start env clock).run acts) ↔ Run.Along Process.step Timely (start env clock) acts := by
  have hiff := Run.final_iff_along Process.step (J := fun y => ¬ Caught y) (C := Timely)
    (fun _ a h => h.step a) (fun _ a h => h.caught_step a) (orderly_start env clock) acts
  have hstart : ¬ Caught (start env clock) := by simp [Caught, start]
  exact hiff.trans (and_iff_right hstart)

end Caught

/-! ### The end -/

/-- Nothing is at work, and nothing can be called. -/
structure Gone (y : Process) : Prop where
  expirationThread : y.expirationThread = none
  shutdownThread : y.shutdownThread = none
  grpc : y.grpc = .null
  busy : y.busy = ∅
  streams : y.streams = 0
  idle : ∀ c, y.clients.client c = none

variable {y : Process} {code : ℕ}

theorem Orderly.at_returned (h : Orderly y) (hmain : y.main = .exited code) : y.At (.returned code) := by
  obtain ⟨st, hst⟩ := h.stage
  cases st with
  | returned code' =>
    have hcode := hst.main
    simp only [hmain, Set.mem_insert_iff, Set.mem_singleton_iff, reduceCtorEq, false_or,
      MainPc.exited.injEq] at hcode
    rwa [hcode]
  | _ => exact absurd hst.main (by simp [hmain])

theorem Orderly.gone (h : Orderly y) (hmain : y.main = .exited code) : Gone y := by
  have hreturned := h.at_returned hmain
  have hcheck : y.expirationThread = none := hreturned.expirationThread
  obtain ⟨hbusy, hstreams⟩ := h.quiet (.inl hreturned.grpc)
  refine ⟨hcheck, hreturned.shutdownThread, hreturned.grpc, hbusy, hstreams, fun c => ?_⟩
  cases c with
  | none =>
    by_contra hbusy
    cases hcheck.symm.trans (h.checking hbusy)
  | some c => exact (h.busy c).mpr (by simp [hbusy])

/-- After the end there is nothing to act on the tables. -/
theorem Gone.step (h : Gone y) (hmain : y.main = .exited code) (a : ProcessAct) :
    (y.step a).clients = y.clients ∧ (y.step a).main = .exited code := by
  cases a with
  | main built =>
    have hstep : y.mainStep built = y := by simp [Process.mainStep, hmain]
    rw [Process.step, hstep]
    exact ⟨rfl, hmain⟩
  | shutdown =>
    have hstep : y.shutdownStep = y := by simp [Process.shutdownStep, h.shutdownThread]
    rw [Process.step, hstep]
    exact ⟨rfl, hmain⟩
  | check =>
    have hstep : y.checkStep = y := by simp [Process.checkStep, h.expirationThread]
    rw [Process.step, hstep]
    exact ⟨rfl, hmain⟩
  | call c req =>
    have hreq : y.admits req = false := by cases req <;> simp [Process.admits, h.grpc, h.streams]
    rw [Process.step, hreq]
    exact ⟨rfl, hmain⟩
  | resume c =>
    refine ⟨?_, hmain⟩
    show y.clients.step handler ServerAct.exec (.resume (some c)) = y.clients
    rw [Handlers.System.step, h.idle]
  | openStream =>
    have hstep : y.step .openStream = y := by simp [Process.step, h.grpc]
    rw [hstep]
    exact ⟨rfl, hmain⟩
  | endStream => exact ⟨rfl, hmain⟩
  | signal => exact ⟨rfl, hmain⟩
  | tick d => exact ⟨rfl, hmain⟩

/-- **The process exits clean.** In every run: `std::terminate` is not called; the main thread does
not call a server that is not there, if each step is timely; and once the process has exited, there
is no thread and no handler at work, no stream is open, there is no gRPC server to call, and the
tables never change again. Its status is 0 only if there has been a signal. -/
theorem exits_clean (env : Env) (clock : Int) (acts : List ProcessAct) :
    let y := (start env clock).run acts
    y.terminated = false ∧
      (y.main = .lost → ¬ Run.Along Process.step Timely (start env clock) acts) ∧
      ∀ code, y.main = .exited code →
        Gone y ∧ (code = 0 → y.shutdown = true) ∧ ∀ acts', (y.run acts').clients = y.clients := by
  intro y
  have h : Orderly y := (orderly_start env clock).run acts
  refine ⟨h.alive, fun hlost htimely => ?_,
    fun code hmain => ⟨h.gone hmain, fun hcode => h.success ?_, fun acts' => ?_⟩⟩
  · obtain ⟨st, hst⟩ := h.stage
    have hgrpc : y.grpc = .null := by_contra fun hgrpc => hst.main_ne_lost hgrpc hlost
    exact (caught_run env clock acts).mpr htimely ⟨hgrpc, .inr (.inr hlost)⟩
  · rw [hmain, hcode]
    rfl
  · have hkept : Orderly (y.run acts') ∧ (y.run acts').main = .exited code ∧
        (y.run acts').clients = y.clients := by
      refine Run.invariant Process.step
        (I := fun z => Orderly z ∧ z.main = .exited code ∧ z.clients = y.clients)
        (fun z a hz => ?_) ⟨h, hmain, rfl⟩ acts'
      obtain ⟨hz, hexited, hsame⟩ := hz
      obtain ⟨hclients, hmain'⟩ := (hz.gone hexited).step hexited a
      exact ⟨hz.step a, hmain', hclients.trans hsame⟩
    exact hkept.2.2

/-- Nothing in the code makes the steps timely: the main thread has tested `server_` when there is a
signal, and goes on when the shutdown thread is done. -/
theorem lost_reachable (env : Env) (clock : Int) :
    ∃ acts, ((start env clock).run acts).main = .lost := by
  refine ⟨[.main true, .main true, .main true, .main true, .main true, .main true, .signal,
    .shutdown, .shutdown, .shutdown, .check, .shutdown, .shutdown, .shutdown, .shutdown, .shutdown,
    .main true], ?_⟩
  simp [start, Process.step, Process.mainStep, Process.shutdownStep, Process.checkStep, stopStep,
    Process.joinCheck]

end Process

end EtcdLite
