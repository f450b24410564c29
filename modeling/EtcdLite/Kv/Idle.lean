import EtcdLite.Lease.System
import EtcdLite.Model.KVService

/-!
# Operations that change nothing

`Put`, `Delete` and `Txn` take a revision first of all, before it is known whether there is
anything to do. When there is not, because no stored key is in the range or the branch that is
executed neither puts nor removes a key, the operation leaves the server as it was, at the next
revision (`delete_of_matchesNone`, `txn_of_idle`).

So the revision may advance when nothing changes. It always does when something changes: in a run it
counts the operations that have been executed (`revision_run`), and between two of them nothing
happens to the store, or to the key set of a lease that stays (`idle_operations`).
-/

namespace EtcdLite

open Server

/-! ### Nothing to do -/

/-- The range has none of the stored keys. -/
def Server.MatchesNone (s : Server) (key rangeEnd : Bytes) : Prop :=
  ∀ k, (s.kvStore.data.find? k).isSome → keyInRange k key rangeEnd = false

theorem matched_eq_nil {s : Server} {key rangeEnd : Bytes} (h : s.MatchesNone key rangeEnd) :
    s.matched key rangeEnd = [] := by
  refine List.eq_nil_iff_forall_not_mem.mpr ?_
  rintro ⟨k, info⟩ hmem
  obtain ⟨hk, hr⟩ := mem_matched.mp hmem
  rw [h k (by rw [hk]; rfl)] at hr
  cases hr

/-- Then there is nothing to erase, and no key to take from a lease. -/
theorem eraseMatched_of_matchesNone {s : Server} {key rangeEnd : Bytes}
    (h : s.MatchesNone key rangeEnd) :
    s.eraseMatched key rangeEnd = (s.kvStore.data, s.leaseManager) := by
  rw [eraseMatched, matched_eq_nil h]
  rfl

/-- The operation of a transaction neither puts nor removes a key. -/
def RequestOp.Idle (s : Server) : RequestOp → Prop
  | .requestPut _ => False
  | .requestDeleteRange r => s.MatchesNone r.key r.rangeEnd
  | .requestRange _ | .requestTxn _ _ _ | .notSet => True

/-! ### What is left -/

/-- **A deletion that matches nothing only takes a revision.** -/
theorem delete_of_matchesNone {s : Server} {key rangeEnd : Bytes} (h : s.MatchesNone key rangeEnd)
    (prevKvs : Bool) :
    (s.delete key rangeEnd prevKvs).2 = s.setRevision (s.kvStore.revision + 1) := by
  have hmany : (s.setRevision (s.kvStore.revision + 1)).deleteMany key rangeEnd prevKvs =
      ([], s.setRevision (s.kvStore.revision + 1)) := by
    have hnone : (s.setRevision (s.kvStore.revision + 1)).kvStore.data.toList.filter
        (fun e => keyInRange e.1 key rangeEnd) = [] := matched_eq_nil h
    rw [deleteMany, hnone]
    cases prevKvs <;> rfl
  rw [delete_eq, hmany]
  -- The callback is set or not, and there is nothing to call it for.
  exact ite_self _

theorem txnOp_of_idle {s : Server} {op : RequestOp} (h : op.Idle s) (revision : Int) :
    (s.txnOp revision op).2 = s := by
  cases op with
  | requestPut r => cases h
  | requestDeleteRange r =>
    have herase : (s.txnDeleteRange r).2 =
        { s with
          kvStore := { s.kvStore with data := (s.eraseMatched r.key r.rangeEnd).1 }
          leaseManager := (s.eraseMatched r.key r.rangeEnd).2 } := rfl
    rw [eraseMatched_of_matchesNone h] at herase
    exact herase
  | requestRange r => rfl
  | requestTxn c p q => rfl
  | notSet => rfl

theorem txnOps_of_idle {s : Server} {ops : List RequestOp} (h : ∀ op ∈ ops, op.Idle s)
    (revision : Int) : (s.txnOps revision ops).2 = s := by
  induction ops with
  | nil => rfl
  | cons op ops ih =>
    obtain ⟨hop, hops⟩ := List.forall_mem_cons.mp h
    show ((s.txnOp revision op).2.txnOps revision ops).2 = s
    rw [txnOp_of_idle hop]
    exact ih hops

/-- **So does a transaction whose branch neither puts nor removes a key.** -/
theorem txn_of_idle {s : Server} {compares : List Compare} {success failure : List RequestOp}
    (h : ∀ op ∈ s.chosenOps compares success failure, op.Idle s) :
    (s.txn compares success failure).2 = s.setRevision (s.kvStore.revision + 1) := by
  rw [txn_snd]
  -- Whether an operation is idle does not depend on the revision.
  exact txnOps_of_idle (s := s.setRevision (s.kvStore.revision + 1))
    (fun op hop => by cases op <;> exact h _ hop) _

/-! ### The revision of a run -/

namespace System

/-- The call of `Put`, `Delete` or `Txn` that a step executes, if it does: a revocation deletes its
keys by calls of `Delete`. -/
def executed (y : System) (a : Act) : List KvOp :=
  match y.atom a with
  | some (.kv op) => [op]
  | some (.grant _ _) | some (.keepAlive _ _) | some (.erase _) | none => []

/-- The calls that the steps of a run execute, in order. -/
abbrev executions (y : System) (acts : List Act) : List KvOp := Run.log step executed y acts

/-- A step executes one operation of the store, or leaves the store alone and writes nothing. -/
theorem step_executed (y : System) (a : Act) :
    (∃ op, y.executed a = [op] ∧ (y.step a).server = op.exec y.server) ∨
      (y.executed a = [] ∧ (y.step a).server.kvStore = y.server.kvStore ∧ y.logged a = []) := by
  rw [step_server, executed, logged]
  cases ha : y.atom a with
  | none => exact .inr ⟨rfl, rfl, rfl⟩
  | some atom =>
    cases atom with
    | kv op => exact .inl ⟨op, rfl, rfl⟩
    | grant now ttl => exact .inr ⟨rfl, rfl, rfl⟩
    | keepAlive now L =>
      obtain ⟨lm, hlm⟩ := keepAlive_rest y.server now L
      refine .inr ⟨rfl, ?_, rfl⟩
      rw [Option.elim_some, Atom.exec, hlm]
    | erase L => exact .inr ⟨rfl, rfl, rfl⟩

/-- **The revision counts the operations of the store** that have been executed. -/
theorem revision_run (y : System) (acts : List Act) : (y.run acts).server.kvStore.revision =
    y.server.kvStore.revision + (y.executions acts).length := by
  induction acts generalizing y with
  | nil => simp [Run.log, run]
  | cons a acts ih =>
    rw [run, Run.final_cons, ih, executions, executions, Run.log, List.length_append]
    rcases y.step_executed a with ⟨op, hop, hserver⟩ | ⟨hnone, hstore, -⟩
    · rw [hop, hserver, exec_revision, List.length_singleton]
      push_cast
      omega
    · rw [hnone, hstore, List.length_nil, Nat.zero_add]

/-- While none is executed, the store stays as it is and nothing is written. -/
theorem run_of_none_executed {y : System} {acts : List Act}
    (h : y.executions acts = []) :
    (y.run acts).server.kvStore = y.server.kvStore ∧ y.history acts = [] := by
  induction acts generalizing y with
  | nil => exact ⟨rfl, rfl⟩
  | cons a acts ih =>
    obtain ⟨ha, hacts⟩ := List.append_eq_nil_iff.mp h
    obtain ⟨hstore, hhistory⟩ := ih hacts
    rcases y.step_executed a with ⟨op, hop, -⟩ | ⟨-, hstep, hlogged⟩
    · rw [hop] at ha
      cases ha
    · refine ⟨hstore.trans hstep, ?_⟩
      show y.logged a ++ (y.step a).history acts = []
      rw [hlogged, hhistory]
      rfl

end System

/-- The key set of a lease is a matter of the store, and of the writes there have been. -/
theorem keySet_eq_of_history {s t : Server} {h : List (Write × LeaseManager)}
    (hs : Sound s (tagOf h)) (ht : Sound t (tagOf h)) (hstore : t.kvStore = s.kvStore) {L : Int}
    {S S' : Set Bytes} (hS : s.leaseManager.keySet L = some S)
    (hS' : t.leaseManager.keySet L = some S') : S' = S := by
  ext k
  have hdata : t.books.data = s.books.data := by
    rw [Server.books, Server.books, Server.data, Server.data, hstore]
  rw [hs.exact L S hS k, ht.exact L S' hS' k, hdata]

/-- **Operations that change nothing take a revision and nothing else.** On every server that a run
leads to: a deletion whose range has no stored key leaves the server as it was, at the next revision;
so does a transaction whose executed branch neither puts nor removes a key. And however the run
goes on, the revision counts the calls of `Put`, `Delete` and `Txn`: at the same revision the store
is the same, and so is the key set of each lease that is still there. -/
theorem idle_operations (env : Env) (clock : Int) (acts : List Act) :
    let y := (System.start env clock).run acts
    let s := y.server
    (∀ key rangeEnd prevKvs, s.MatchesNone key rangeEnd →
      (s.delete key rangeEnd prevKvs).2 = s.setRevision (s.kvStore.revision + 1)) ∧
    (∀ request : DeleteRangeRequest, s.MatchesNone request.key request.rangeEnd →
      (KVService.deleteRange s request).2 = s.setRevision (s.kvStore.revision + 1)) ∧
    (∀ request : TxnRequest,
      (∀ op ∈ s.chosenOps request.compare request.success request.failure, op.Idle s) →
        (KVService.txn s request).2 = s.setRevision (s.kvStore.revision + 1)) ∧
    ∀ post,
      let t := (y.run post).server
      t.kvStore.revision = s.kvStore.revision + (y.executions post).length ∧
      (t.kvStore.revision = s.kvStore.revision → t.kvStore = s.kvStore ∧
        ∀ L S S', s.leaseManager.keySet L = some S → t.leaseManager.keySet L = some S' →
          S' = S) := by
  intro y s
  refine ⟨fun key rangeEnd prevKvs h => delete_of_matchesNone h prevKvs,
    fun request h => delete_of_matchesNone h true, fun request h => txn_of_idle h, ?_⟩
  intro post t
  have hrevision : t.kvStore.revision = s.kvStore.revision + (y.executions post).length :=
    y.revision_run post
  refine ⟨hrevision, fun hsame => ?_⟩
  have hnone : y.executions post = [] := by
    rw [← List.length_eq_zero_iff]
    omega
  obtain ⟨hstore, hhistory⟩ := System.run_of_none_executed hnone
  refine ⟨hstore, fun L S S' hS hS' => ?_⟩
  have hlog : (System.start env clock).history (acts ++ post) =
      (System.start env clock).history acts := by
    rw [System.history, Run.log_append]
    exact (congrArg _ hhistory).trans (List.append_nil _)
  have hsound : Sound s (tagOf ((System.start env clock).history acts)) := sound_run env clock acts
  have hsound' : Sound t (tagOf ((System.start env clock).history acts)) := by
    have ht := sound_run env clock (acts ++ post)
    dsimp only at ht
    rwa [hlog, System.run, Run.final_append] at ht
  exact keySet_eq_of_history hsound hsound' hstore hS hS'

/-- On a new server, the deletion of a key that is not there and the empty transaction take a
revision. -/
theorem idle_advances :
    let s := Server.new .plain
    s.MatchesNone [107] [] ∧ (s.delete [107] [] false).2.kvStore.revision ≠ s.kvStore.revision ∧
      (KVService.txn s {}).2.kvStore.revision ≠ s.kvStore.revision := by
  refine ⟨fun k hk => ?_, by decide, by decide⟩
  cases hk

end EtcdLite
