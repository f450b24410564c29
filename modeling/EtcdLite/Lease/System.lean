import EtcdLite.Lease.Index

/-!
# Interleavings

The server with any number of threads, and the clock. A client's call of `Put`, `Delete`,
`Txn`, `Grant` or `KeepAlive` is one step, under the lock of its component.
`Revoke` and `CheckExpiration` are not, and a thread that runs one of them takes it a step
at a time (`System.resume`), with any steps of the others in between:

* `CheckExpiration` reads the clock; collects the expired leases; revokes them in turn;
* `Revoke` copies the lease's keys; deletes them in turn; erases the lease.

A thread that is left alone does what these functions do when they run to completion
(`drive_revoke`, `drive_checkExpiration`). After any interleaving the key set of each lease is
exact (`lease_index_exact`).
-/

namespace EtcdLite

open Server

/-- Where a thread stands. -/
inductive Thread where
  /-- In `CheckExpiration`: the clock has been read. -/
  | collecting (now : Int)
  /-- These leases are to be revoked, in turn. -/
  | pending (leases : List Int)
  /-- In `Revoke`: these keys are to be deleted, and then the lease erased. After it, these
  leases are to be revoked. -/
  | revoking (leaseId : Int) (keys : List Bytes) (leases : List Int)

/-- The thread has nothing to do. -/
def Thread.idle : Thread → Bool
  | .pending [] => true
  | _ => false

/-- The server, the clock and the threads. -/
structure System where
  server : Server
  /-- The reading of the steady clock. -/
  clock : Int
  threads : ℕ → Thread

namespace System

/-- The start: a server as its constructor leaves it, and no thread busy. -/
def start (env : Env) (clock : Int) : System :=
  { server := .new env, clock := clock, threads := fun _ => .pending [] }

/-- A thread moves on. -/
def setThread (y : System) (t : ℕ) (thread : Thread) : System :=
  { y with threads := fun t' => if t' = t then thread else y.threads t' }

/-- The next step of a thread. -/
def resume (y : System) (t : ℕ) : System :=
  match y.threads t with
  | .collecting now => y.setThread t (.pending (y.server.leaseManager.expiredLeases now))
  | .pending [] => y
  | .pending (L :: Ls) =>
    match y.server.leaseManager.getLeaseKeys L with
    | .error _ => y.setThread t (.pending Ls)
    | .ok keys =>
      y.setThread t (.revoking L (if y.server.leaseManager.deleteKeyCallback then keys else []) Ls)
  | .revoking L (k :: ks) Ls =>
    { y with server := y.server.deleteKeyCallback k }.setThread t (.revoking L ks Ls)
  | .revoking L [] Ls =>
    { y with
      server := { y.server with leaseManager := y.server.leaseManager.erase L } }.setThread t
        (.pending Ls)

end System

/-- What can happen next. -/
inductive Act where
  /-- A client calls `Put`, `Delete` or `Txn`. -/
  | kv (op : KvOp)
  /-- A client calls `Grant`. -/
  | grant (ttl : Int)
  /-- A client calls `KeepAlive`. -/
  | keepAlive (leaseId : Int)
  /-- A client calls `Revoke`, and an idle thread takes the call. -/
  | revoke (t : ℕ) (leaseId : Int)
  /-- An idle thread calls `CheckExpiration`. -/
  | checkExpiration (t : ℕ)
  /-- A thread takes its next step. -/
  | resume (t : ℕ)
  /-- Time passes. -/
  | tick (d : ℕ)

namespace System

/-- One step. -/
def step (y : System) : Act → System
  | .kv op => { y with server := op.exec y.server }
  | .grant ttl => { y with server := y.server.grant y.clock ttl }
  | .keepAlive L => { y with server := y.server.keepAlive y.clock L }
  | .revoke t L => if (y.threads t).idle then y.setThread t (.pending [L]) else y
  | .checkExpiration t => if (y.threads t).idle then y.setThread t (.collecting y.clock) else y
  | .resume t => y.resume t
  | .tick d => { y with clock := y.clock + d }

/-- The state a run leads to. -/
abbrev run (y : System) (acts : List Act) : System := Run.final step y acts

/-- The atomic section a step runs at the server, if it is one. -/
def atom (y : System) : Act → Option Atom
  | .kv op => some (.kv op)
  | .grant ttl => some (.grant y.clock ttl)
  | .keepAlive L => some (.keepAlive y.clock L)
  | .resume t =>
    match y.threads t with
    | .revoking _ (k :: _) _ => some (.kv (.delete k [] false))
    | .revoking L [] _ => some (.erase L)
    | .collecting _ | .pending _ => none
  | .revoke _ _ | .checkExpiration _ | .tick _ => none

/-- The writes a step makes, each with the lease manager at that moment. -/
def logged (y : System) (a : Act) : List (Write × LeaseManager) :=
  (y.atom a).elim [] (Atom.logged y.server)

/-- The writes of a run. -/
abbrev history (y : System) (acts : List Act) : List (Write × LeaseManager) :=
  Run.log step logged y acts

/-! ### What a step does -/

@[simp] theorem setThread_server (y : System) (t : ℕ) (thread : Thread) :
    (y.setThread t thread).server = y.server := rfl

theorem setThread_threads (y : System) (t t' : ℕ) (thread : Thread) :
    (y.setThread t thread).threads t' = if t' = t then thread else y.threads t' := rfl

theorem setThread_self (y : System) (t : ℕ) (thread : Thread) :
    (y.setThread t thread).threads t = thread := if_pos rfl

/-- What the next step of a thread can be. -/
inductive Resumes (y : System) (t : ℕ) : System → Prop
  /-- It has nothing to do. -/
  | idle (h : y.threads t = .pending []) : Resumes y t y
  /-- It collects the expired leases. -/
  | collected {now : Int} (h : y.threads t = .collecting now) :
      Resumes y t (y.setThread t (.pending (y.server.leaseManager.expiredLeases now)))
  /-- It finds no such lease. -/
  | missing {L : Int} {Ls : List Int} (h : y.threads t = .pending (L :: Ls)) :
      Resumes y t (y.setThread t (.pending Ls))
  /-- It copies the keys of the lease. -/
  | copied {L : Int} {Ls : List Int} {keys : List Bytes} (h : y.threads t = .pending (L :: Ls))
      (hkeys : y.server.leaseManager.getLeaseKeys L = .ok keys) :
      Resumes y t (y.setThread t
        (.revoking L (if y.server.leaseManager.deleteKeyCallback then keys else []) Ls))
  /-- It deletes a key. -/
  | deleted {L : Int} {k : Bytes} {ks : List Bytes} {Ls : List Int}
      (h : y.threads t = .revoking L (k :: ks) Ls) :
      Resumes y t
        ({ y with server := (KvOp.delete k [] false).exec y.server }.setThread t
          (.revoking L ks Ls))
  /-- It erases the lease. -/
  | erased {L : Int} {Ls : List Int} (h : y.threads t = .revoking L [] Ls) :
      Resumes y t
        ({ y with server := (Atom.erase L).exec y.server }.setThread t (.pending Ls))

theorem resume_cases {y z : System} {t : ℕ} (hz : y.resume t = z) : Resumes y t z := by
  subst hz
  unfold resume
  split
  case h_1 now h => exact .collected h
  case h_2 h => exact .idle h
  case h_3 L Ls h =>
    split
    case h_1 rc _ => exact .missing h
    case h_2 keys hkeys => exact .copied h hkeys
  case h_4 L k ks Ls h => exact .deleted h
  case h_5 L Ls h => exact .erased h

/-- A step of one thread leaves the others where they are. -/
theorem resume_other (y : System) {t t' : ℕ} (ht : t' ≠ t) :
    (y.resume t).threads t' = y.threads t' := by
  generalize hz : y.resume t = z
  cases resume_cases hz with
  | idle h => rfl
  | collected h => exact if_neg ht
  | missing h => exact if_neg ht
  | copied h hkeys => exact if_neg ht
  | deleted h => exact if_neg ht
  | erased h => exact if_neg ht

/-- What holds of every thread after a step: it is to be shown of the threads as they were,
of a call that a thread takes, and of the thread that resumes. -/
theorem threads_step {Q : Thread → Prop} {y : System} {a : Act} (keep : ∀ t, Q (y.threads t))
    (call : ∀ t L, a = .revoke t L → Q (.pending [L]))
    (check : ∀ t, a = .checkExpiration t → Q (.collecting y.clock))
    (resume : ∀ t, a = .resume t → Q ((y.resume t).threads t)) :
    ∀ t, Q ((y.step a).threads t) := by
  intro t'
  cases a with
  | kv op => exact keep t'
  | grant ttl => exact keep t'
  | keepAlive L => exact keep t'
  | tick d => exact keep t'
  | revoke t L =>
    rw [step]
    split_ifs
    · rw [setThread_threads]
      split_ifs
      · exact call t L rfl
      · exact keep t'
    · exact keep t'
  | checkExpiration t =>
    rw [step]
    split_ifs
    · rw [setThread_threads]
      split_ifs
      · exact check t rfl
      · exact keep t'
    · exact keep t'
  | resume t =>
    by_cases ht : t' = t
    · subst ht
      exact resume t' rfl
    · rw [step, resume_other y ht]
      exact keep t'

/-- A step does its atomic section to the server, and nothing else. -/
theorem step_server (y : System) (a : Act) :
    (y.step a).server = (y.atom a).elim y.server (Atom.exec y.server) := by
  cases a with
  | kv op => rfl
  | grant ttl => rfl
  | keepAlive L => rfl
  | tick d => rfl
  | revoke t L =>
    simp only [step, atom, Option.elim_none]
    split_ifs <;> rfl
  | checkExpiration t =>
    simp only [step, atom, Option.elim_none]
    split_ifs <;> rfl
  | resume t =>
    rw [step]
    generalize hz : y.resume t = z
    cases resume_cases hz with
    | idle h => simp [atom, h]
    | collected h => simp [atom, h]
    | missing h => simp [atom, h]
    | copied h hkeys => simp [atom, h]
    | deleted h => simp [atom, h, Atom.exec]
    | erased h => simp [atom, h]

/-- The writes of a step are what changes the tag. -/
def retag (y : System) (tag : Tag) (a : Act) : Tag :=
  (y.logged a).foldl (fun tag e => e.1.retag {L | e.2.Live L} tag) tag

/-- **Every step keeps the server sound.** -/
theorem sound_step {y : System} {tag : Tag} (h : Sound y.server tag) (a : Act) :
    Sound (y.step a).server (y.retag tag a) := by
  rw [step_server, retag, logged]
  cases ha : y.atom a with
  | none => exact h
  | some atom => exact h.exec atom

/-! ### A thread left alone -/

/-- A thread takes `n` steps, and no other takes one. -/
abbrev drive (y : System) (t n : ℕ) : System := y.run (List.replicate n (.resume t))

theorem drive_succ (y : System) (t n : ℕ) : y.drive t (n + 1) = (y.resume t).drive t n := rfl

theorem drive_add (y : System) (t m n : ℕ) : y.drive t (m + n) = (y.drive t m).drive t n := by
  rw [drive, List.replicate_add]
  exact Run.final_append ..

/-- It deletes the first of its keys, one after another. -/
theorem drive_deleting {y : System} {t : ℕ} {L : Int} {ks rest : List Bytes} {Ls : List Int}
    (h : y.threads t = .revoking L (ks ++ rest) Ls) :
    (y.drive t ks.length).threads t = .revoking L rest Ls ∧
      (y.drive t ks.length).server = ks.foldl deleteKeyCallback y.server := by
  induction ks generalizing y with
  | nil => exact ⟨h, rfl⟩
  | cons k ks ih =>
    have hres : y.resume t =
        { y with server := y.server.deleteKeyCallback k }.setThread t
          (.revoking L (ks ++ rest) Ls) := by
      rw [resume, h]
      rfl
    obtain ⟨hthread, hserver⟩ := ih (y := y.resume t) (by rw [hres, setThread_self])
    refine ⟨hthread, ?_⟩
    rw [List.length_cons, drive_succ, hserver, hres]
    rfl

/-- It deletes its keys and erases the lease. -/
theorem drive_revoking {y : System} {t : ℕ} {L : Int} {ks : List Bytes} {Ls : List Int}
    (h : y.threads t = .revoking L ks Ls) :
    (y.drive t (ks.length + 1)).threads t = .pending Ls ∧
      (y.drive t (ks.length + 1)).server =
        (Atom.erase L).exec (ks.foldl deleteKeyCallback y.server) := by
  rw [← List.append_nil ks] at h
  obtain ⟨hthread, hserver⟩ := drive_deleting h
  have hlast : y.drive t (ks.length + 1) = (y.drive t ks.length).resume t :=
    drive_add y t ks.length 1
  rw [hlast, resume, hthread, ← hserver]
  exact ⟨setThread_self .., rfl⟩

/-- **A thread left alone does what `Revoke` run to completion does.** -/
theorem drive_revoke {y : System} {t : ℕ} {L : Int} {Ls : List Int}
    (h : y.threads t = .pending (L :: Ls)) : ∃ n, (y.drive t n).threads t = .pending Ls ∧
      (y.drive t n).server = (y.server.revoke L).2 := by
  cases hkeys : y.server.leaseManager.getLeaseKeys L with
  | error rc =>
    have hres : y.resume t = y.setThread t (.pending Ls) := by simp only [resume, h, hkeys]
    refine ⟨1, ?_⟩
    rw [drive_succ, hres, Server.revoke, hkeys]
    exact ⟨setThread_self .., rfl⟩
  | ok keys =>
    have hres : y.resume t = y.setThread t
        (.revoking L (if y.server.leaseManager.deleteKeyCallback then keys else []) Ls) := by
      simp only [resume, h, hkeys]
    obtain ⟨hthread, hserver⟩ := drive_revoking (y := y.resume t) (by rw [hres, setThread_self])
    rw [← drive_succ] at hthread hserver
    refine ⟨_, hthread, hserver.trans ?_⟩
    rw [hres, Server.revoke, hkeys]
    cases y.server.leaseManager.deleteKeyCallback <;> rfl

/-- It revokes the first of its leases, one after another. -/
theorem drive_pending {y : System} {t : ℕ} {Ls rest : List Int}
    (h : y.threads t = .pending (Ls ++ rest)) : ∃ n, (y.drive t n).threads t = .pending rest ∧
      (y.drive t n).server = Ls.foldl (fun s L => (s.revoke L).2) y.server := by
  induction Ls generalizing y with
  | nil => exact ⟨0, h, rfl⟩
  | cons L Ls ih =>
    obtain ⟨n, hthread, hserver⟩ := drive_revoke h
    obtain ⟨m, hthread', hserver'⟩ := ih hthread
    refine ⟨n + m, ?_⟩
    rw [drive_add, hserver', hserver]
    exact ⟨hthread', rfl⟩

/-- **A thread left alone does what `CheckExpiration` run to completion does.** -/
theorem drive_checkExpiration {y : System} {t : ℕ} {now : Int}
    (h : y.threads t = .collecting now) : ∃ n, (y.drive t n).threads t = .pending [] ∧
      (y.drive t n).server = y.server.checkExpiration now := by
  have hres : y.resume t =
      y.setThread t (.pending (y.server.leaseManager.expiredLeases now ++ [])) := by
    simp only [resume, h, List.append_nil]
  obtain ⟨n, hthread, hserver⟩ := drive_pending (y := y.resume t) (by rw [hres, setThread_self])
  refine ⟨n + 1, hthread, hserver.trans ?_⟩
  rw [hres]
  rfl

end System

/-! ### The index after a run -/

/-- The lease manager when the key was last put. -/
def lastPutAt (k : Bytes) (h : List (Write × LeaseManager)) : Option LeaseManager :=
  ((h.filter fun e => (e.1.putOf k).isSome).getLast?).map Prod.snd

/-- The tag a history leaves. -/
def tagOf (h : List (Write × LeaseManager)) : Tag :=
  fun k => {L | ∃ lm, lastPutAt k h = some lm ∧ lm.Live L}

@[simp] theorem tagOf_nil : tagOf [] = fun _ => ∅ := by
  funext k
  simp [tagOf, lastPutAt]

theorem tagOf_concat (h : List (Write × LeaseManager)) (e : Write × LeaseManager) :
    tagOf (h ++ [e]) = e.1.retag {L | e.2.Live L} (tagOf h) := by
  funext k
  obtain ⟨w, lm⟩ := e
  cases hput : w.putOf k with
  | none =>
    rw [Write.retag_of_other hput]
    simp [tagOf, lastPutAt, hput]
  | some p =>
    rw [Write.retag_of_putOf hput]
    simp [tagOf, lastPutAt, hput]

theorem tagOf_append (h es : List (Write × LeaseManager)) : tagOf (h ++ es) =
    es.foldl (fun tag e => e.1.retag {L | e.2.Live L} tag) (tagOf h) := by
  induction es generalizing h with
  | nil => simp
  | cons e es ih => rw [List.append_cons, ih, tagOf_concat, List.foldl_cons]

/-- After any run the server is sound, by the tag of the run's history. -/
theorem sound_run (env : Env) (clock : Int) (acts : List Act) :
    let y := System.start env clock
    Sound (y.run acts).server (tagOf (y.history acts)) := by
  refine Run.invariant_log System.step (I := fun y h => Sound y.server (tagOf h)) ?_ ?_ acts
  · intro y a h hy
    rw [tagOf_append]
    exact System.sound_step hy a
  · rw [tagOf_nil]
    exact sound_new env

/-- **The index is exact.** After any interleaving, a key is in the key set of a lease exactly
when it is in the store, bound to the lease, and the lease was there when the key was last
put. So no key is in two key sets, and none is absent or bound to another lease. -/
theorem lease_index_exact (env : Env) (clock : Int) (acts : List Act) :
    let y := System.start env clock
    let s := (y.run acts).server
    (∀ L info, s.leaseManager.leases.find? L = some info →
      ∀ k, k ∈ info.keys ↔ ∃ e, s.kvStore.data.find? k = some e ∧ e.kv.lease = L ∧
        ∃ lm, lastPutAt k (y.history acts) = some lm ∧ (lm.leases.find? L).isSome) ∧
    (∀ L L' info info', s.leaseManager.leases.find? L = some info →
      s.leaseManager.leases.find? L' = some info' →
      ∀ k, k ∈ info.keys → k ∈ info'.keys → L = L') ∧
    ∀ L info, s.leaseManager.leases.find? L = some info →
      ∀ k ∈ info.keys, ∃ e, s.kvStore.data.find? k = some e ∧ e.kv.lease = L := by
  intro y s
  have hexact : ∀ L info, s.leaseManager.leases.find? L = some info →
      ∀ k, k ∈ info.keys ↔ ∃ e, s.kvStore.data.find? k = some e ∧ e.kv.lease = L ∧
        ∃ lm, lastPutAt k (y.history acts) = some lm ∧ (lm.leases.find? L).isSome := by
    intro L info hL k
    have h := (sound_run env clock acts).exact L _ (LeaseManager.keySet_of_find? hL) k
    simpa [tagOf, LeaseManager.Live, LeaseManager.keySet, Server.books, Server.data] using h
  have hbound : ∀ L info, s.leaseManager.leases.find? L = some info →
      ∀ k ∈ info.keys, ∃ e, s.kvStore.data.find? k = some e ∧ e.kv.lease = L := by
    intro L info hL k hk
    obtain ⟨e, he, hlease, -⟩ := (hexact L info hL k).mp hk
    exact ⟨e, he, hlease⟩
  refine ⟨hexact, ?_, hbound⟩
  intro L L' info info' hL hL' k hk hk'
  obtain ⟨e, he, rfl⟩ := hbound L info hL k hk
  obtain ⟨e', he', rfl⟩ := hbound L' info' hL' k hk'
  rw [he] at he'
  rw [Option.some.inj he']

end EtcdLite
