import EtcdLite.Lib.Progress
import EtcdLite.Threads.Deadlock

/-!
# Operations return

What the order of the locks gives for infinite runs. If the mutexes are fair, every operation that
is called returns (`calls_return`): no thread waits for ever, for a lock or for a lease, a watcher
or a key-value that another thread deals with. A `std::mutex` does not promise to be fair. If they
are not, one thread may wait while others come and go; but as long as an operation is at work some
operation returns, and when no more are called all return (`no_livelock`).

Here a write to a stream ends when its thread goes on. A client that stops reading from a stream
holds up the thread that writes to it, and the locks that this thread holds.
-/

namespace EtcdLite.Threads

open Server Locks Fairness

variable {T : Type} [DecidableEq T]

theorem disciplined_states (env : Env) (evs : ℕ → Locks.Event T Op) (n : ℕ) :
    Disciplined system rank (states (Locks.step system) (start T env) evs n) :=
  states_invariant (fun _ e h => h.step ordered_program e) (disciplined_idle system rank _) n

/-- Two threads put a key at the same time, and then take turns. -/
def contest : ℕ → Locks.Event Bool Op
  | 0 => .call false (.put [107] [118] 0)
  | 1 => .call true (.put [107] [119] 0)
  | n + 2 => .resume (n % 2 = 0)

theorem contest_ne_call {n : ℕ} (hn : 2 ≤ n) (t : Bool) (op : Op) : contest n ≠ .call t op := by
  obtain ⟨k, rfl⟩ := Nat.exists_eq_add_of_le' hn
  simp [contest]

/-- In the end both are idle. -/
theorem contest_idle {n : ℕ} (hn : 40 ≤ n) (t : Bool) :
    (states (Locks.step system) (start Bool .plain) contest n).prog t = [] := by
  induction n, hn using Nat.le_induction with
  | base => cases t <;> rfl
  | succ n hn ih => exact idle_step (contest_ne_call (by omega)) ih

theorem often_contest (t : Bool) : Often fun n => contest n = .resume t := by
  intro n
  cases t with
  | false => exact ⟨2 * n + 3, by omega, by simp [contest, Nat.add_mod]⟩
  | true => exact ⟨2 * n + 2, by omega, by simp [contest]⟩

/-- **Every call returns, if the mutexes are fair**, and every mutex is free again and again,
whatever operations any number of threads call. -/
theorem calls_return (env : Env) (evs : ℕ → Locks.Event T Op)
    (hfair : Fair system (start T env) evs) :
    let x := states (Locks.step system) (start T env) evs
    (∀ t, Often fun n => (x n).prog t = []) ∧ ∀ m, Often fun n => (x n).holder m = none :=
  ⟨often_returned hfair (disciplined_states env evs), often_free hfair (disciplined_states env evs)⟩

theorem calls_return_contest :
    let x := states (Locks.step system) (start Bool .plain) contest
    (∀ t, Often fun n => (x n).prog t = []) ∧ ∀ m, Often fun n => (x n).holder m = none :=
  calls_return .plain contest (fair_of_idle fun _ => contest_idle)

/-- **No livelock.** Whatever operations the threads call, and whichever of those that wait for a
mutex gets it: while a thread is in an operation, some operation returns later; and if from some time
on no more operations are called, then from some time on all threads are idle and all mutexes are
free. -/
theorem no_livelock [Finite T] (env : Env) (evs : ℕ → Locks.Event T Op)
    (hturns : ∀ t, Often fun n => evs n = .resume t) :
    let x := states (Locks.step system) (start T env) evs
    (∀ n, (∃ t, (x n).prog t ≠ []) → ∃ m ≥ n, ∃ t, (x m).prog t ≠ [] ∧ (x (m + 1)).prog t = []) ∧
      ((∃ n, ∀ m ≥ n, ∀ t op, evs m ≠ .call t op) →
        ∃ n, ∀ m ≥ n, (∀ t, (x m).prog t = []) ∧ ∀ l, (x m).holder l = none) := by
  intro x
  have hdisc := disciplined_states env evs
  cases nonempty_fintype T
  refine ⟨fun n => exists_returns hturns hdisc, ?_⟩
  rintro ⟨n, hcalls⟩
  obtain ⟨m, -, hidle⟩ := all_return hturns hdisc hcalls
  refine ⟨m, fun k hk => ⟨hidle k hk, fun l => ?_⟩⟩
  refine Option.eq_none_iff_forall_ne_some.mpr fun t ht => ?_
  exact unfinished_of_holds (hdisc k) ht (hidle k hk t)

theorem no_livelock_contest :
    let x := states (Locks.step system) (start Bool .plain) contest
    (∀ n, (∃ t, (x n).prog t ≠ []) → ∃ m ≥ n, ∃ t, (x m).prog t ≠ [] ∧ (x (m + 1)).prog t = []) ∧
      ((∃ n, ∀ m ≥ n, ∀ t op, contest m ≠ .call t op) →
        ∃ n, ∀ m ≥ n, (∀ t, (x m).prog t = []) ∧ ∀ l, (x m).holder l = none) :=
  no_livelock .plain contest often_contest

end EtcdLite.Threads
