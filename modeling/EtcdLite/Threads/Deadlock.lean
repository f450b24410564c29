import EtcdLite.Threads.Alone
import Mathlib.Data.Fin.Basic
import Mathlib.Order.WellFounded

/-!
# No deadlock

The components of the server call each other in both directions, but always take their locks in
one order: that of the store, that of the lease manager, that of the registry of watchers, and
those of the watchers (`rank`). The lease manager calls the store only after it has released its
own lock, and a registration holds one lock at a time. Every program respects the order
(`ordered_program`), so no thread waits for itself, no threads wait for each other in a cycle,
and as long as an operation is unfinished some thread can step (`deadlock_free`).
-/

namespace EtcdLite.Threads

open Server WatchManager Locks

/-- The order in which the locks are taken. -/
def rank : Mutex → Fin 4
  | .store => 0
  | .lease => 1
  | .watch => 2
  | .stream _ => 3

/-- Every lock of the list may be held when the lock is taken. -/
def Below (held : List Mutex) (m : Mutex) : Prop := ∀ m' ∈ held, rank m' < rank m

theorem below_nil (m : Mutex) : Below [] m := by simp [Below]

theorem below_watch (m : Int) : Below [.watch] (.stream m) := by simp [Below, rank]

theorem below_store_watch (m : Int) : Below [.watch, .store] (.stream m) := by simp [Below, rank]

theorem below_store (m : Mutex) (h : m ≠ .store) : Below [.store] m := by
  cases m with
  | store => exact absurd rfl h
  | lease => simp [Below, rank]
  | watch => simp [Below, rank]
  | stream watchId => simp [Below, rank]

variable {held : List Mutex}

theorem block_locked {m : Mutex} {a : Act} (hm : Below held m)
    (ha : ∀ s, Block system rank (m :: held) (m :: held) (a.run s).2) :
    Block system rank held held (locked m a) :=
  .lock hm (.act ha (.unlock block_nil))

/-- An action that no call follows. -/
theorem block_locked_act {m : Mutex} {a : Act} (hm : Below held m) (ha : ∀ s, (a.run s).2 = []) :
    Block system rank held held (locked m a) := by
  refine block_locked hm fun s => ?_
  rw [ha]
  exact block_nil

theorem block_act {a : Act} (ha : ∀ s, (a.run s).2 = []) : Block system rank held held [.act a] := by
  refine .act (fun s => ?_) block_nil
  rw [show (system.run a s).2 = [] from ha s]
  exact block_nil

/-! ### Writes to streams -/

theorem block_sendCall {w : Watcher} {response : WatchResponse} {writer : Writer}
    (hheld : Below held (.stream w.watchId))
    (hrelease : writer.release = [.unlock (.stream w.watchId)])
    (hnext : ∀ ok, Block system rank held held (writer.next ok)) :
    Block system rank held held (sendCall w response writer) := by
  rw [sendCall]
  cases w.stream with
  | none => exact hnext true
  | some sid =>
    refine .lock hheld (.act (fun s => .act (fun s' => ?_) block_nil) block_nil)
    change Block system rank _ held (writer.release ++ writer.next _)
    rw [hrelease]
    exact .unlock (hnext _)

theorem block_notifyCalls (hheld : ∀ watchId, Below held (.stream watchId)) (wm : WatchManager)
    (key : Bytes) (response : Watcher → WatchResponse) :
    Block system rank held held (notifyCalls wm key response) :=
  block_flatMap fun e _ => block_sendCall (hheld e.1.watchId) rfl fun _ => block_nil

theorem block_putCallback (key : Bytes) (kv : KeyValue) (prevKv : Option KeyValue) :
    Block system rank [.store] [.store] [.act (.putCallback key kv prevKv)] :=
  .act (fun s => block_locked (below_store _ (by simp)) fun s' =>
    block_notifyCalls below_store_watch _ _ _) block_nil

theorem block_deleteCallback (kv : KeyValue) :
    Block system rank [.store] [.store] [.act (.deleteCallback kv)] :=
  .act (fun s => block_locked (below_store _ (by simp)) fun s' =>
    block_notifyCalls below_store_watch _ _ _) block_nil

theorem block_putCallbackCall (b : Bool) (key : Bytes) (kv : KeyValue) (prevKv : Option KeyValue) :
    Block system rank [.store] [.store] (putCallbackCall b key kv prevKv) := by
  rw [putCallbackCall]
  split_ifs
  · exact block_putCallback key kv prevKv
  · exact block_nil

theorem block_deleteCallbackCalls (b : Bool) (kvs : List KeyValue) :
    Block system rank [.store] [.store] (deleteCallbackCalls b kvs) := by
  rw [deleteCallbackCalls, List.map_eq_flatMap]
  split_ifs
  · exact block_flatMap fun kv _ => block_deleteCallback kv
  · exact block_nil

/-! ### The store -/

theorem block_relinkCalls (b : Bool) (old : Option KeyInfo) (key : Bytes) (lease : Int) :
    Block system rank [.store] [.store] (relinkCalls b old key lease) := by
  have hlease : Below [.store] .lease := below_store _ (by simp)
  rw [relinkCalls]
  split_ifs
  · exact (block_locked_act hlease fun s => rfl).append (block_locked_act hlease fun s => rfl)
  · exact block_locked_act hlease fun s => rfl
  · exact block_locked_act hlease fun s => rfl
  · exact block_nil

theorem block_detachAndEraseCalls (b : Bool) (pairs : List (Bytes × Int)) :
    Block system rank [.store] [.store] (detachAndEraseCalls b pairs) := by
  refine block_flatMap fun e _ => ?_
  obtain ⟨k, lease⟩ := e
  dsimp only
  split_ifs
  · exact (block_locked_act (below_store _ (by simp)) fun s => rfl).append (block_act fun s => rfl)
  · exact block_act fun s => rfl

theorem block_put (key value : Bytes) (lease : Int) :
    Block system rank [] [] (locked .store (.put key value lease)) := by
  refine block_locked (below_nil _) fun s => ?_
  exact (block_relinkCalls _ _ _ _).append (.act (fun s' => block_nil) (block_putCallbackCall _ _ _ _))

theorem block_delete (key rangeEnd : Bytes) (prevKvs : Bool) :
    Block system rank [] [] (locked .store (.delete key rangeEnd prevKvs)) := by
  refine block_locked (below_nil _) fun s => ?_
  exact (block_detachAndEraseCalls _ _).append (block_deleteCallbackCalls _ _)

theorem block_txnOp (revision : Int) (op : RequestOp) :
    Block system rank [.store] [.store] [.act (.txnOp revision op)] := by
  refine .act (fun s => ?_) block_nil
  cases op with
  | requestPut r => exact (block_relinkCalls _ _ _ _).append (block_act fun s => rfl)
  | requestDeleteRange r => exact block_detachAndEraseCalls _ _
  | requestRange r => exact block_act fun s => rfl
  | requestTxn compares success failure => exact block_nil
  | notSet => exact block_nil

theorem block_txn (compares : List Compare) (success failure : List RequestOp) :
    Block system rank [] [] (locked .store (.txn compares success failure)) := by
  refine block_locked (below_nil _) fun s => ?_
  dsimp only [Act.run]
  rw [List.map_eq_flatMap]
  exact block_flatMap fun op _ => block_txnOp _ op

/-! ### The lease manager -/

/-- A revocation calls the store with no lock held. -/
theorem block_revoke (leaseId : Int) :
    Block system rank [] [] [.lock .lease, .act (.getLeaseKeys leaseId)] := by
  refine .lock (below_nil _) (.act (fun s => .unlock ?_) block_nil)
  cases s.leaseManager.getLeaseKeys leaseId with
  | error rc => exact block_nil
  | ok keys =>
    dsimp only
    refine Block.append ?_ (block_locked_act (below_nil _) fun s' => rfl)
    split_ifs
    · exact block_flatMap fun key _ => block_delete key [] false
    · exact block_nil

theorem block_checkExpiration (now : Int) :
    Block system rank [] [] [.lock .lease, .act (.expiredLeases now)] :=
  .lock (below_nil _) (.act (fun _ => .unlock (block_flatMap fun leaseId _ => block_revoke leaseId))
    block_nil)

/-! ### The watch manager -/

theorem block_cancelWatcher (watchId : Int) :
    Block system rank [] [] (locked .watch (.cancelWatcher watchId)) := by
  refine block_locked (below_nil _) fun s => ?_
  rw [Act.run]
  cases s.watchManager.watchers.find? watchId with
  | none => exact block_nil
  | some w =>
    exact (block_sendCall (below_watch _) rfl fun _ => block_nil).append (block_act fun s' => rfl)

theorem block_insertCall (w : Watcher) : Block system rank [] [] (insertCall w) :=
  block_locked_act (below_nil _) fun _ => rfl

/-- The historical events are sent after the lock of the store has been released. -/
theorem block_historyCall (w : Watcher) : Block system rank [] [] (Writer.historyCall w) := by
  rw [Writer.historyCall]
  split_ifs
  · refine .lock (below_nil _) (.act (fun s => .unlock ?_) block_nil)
    refine Block.append ?_ (block_insertCall w)
    exact block_flatMap fun kv _ => block_sendCall (below_nil _) rfl fun _ => block_nil
  · exact block_insertCall w

theorem block_refuse (sid : StreamId) (watchId : Int) :
    Block system rank [] [] [.act (.refuse sid watchId)] :=
  .act (fun _ => .act (fun _ => .act (fun _ => block_nil) block_nil) block_nil) block_nil

theorem block_created (w : Watcher) (handler ok : Bool) :
    Block system rank [] [] ((Writer.created w handler).next ok) := by
  rw [Writer.next]
  split_ifs
  · exact block_historyCall w
  · rw [List.map_eq_flatMap]
    exact block_flatMap fun sid _ => block_refuse sid w.watchId
  · exact block_nil

theorem block_takeId (req : WatchCreateRequest) (stream : Option StreamId) (handler : Bool) :
    Block system rank [] [] [.act (.takeId req stream handler)] :=
  .act (fun _ => .act (fun _ => block_sendCall (below_nil _) rfl (block_created _ handler)) block_nil)
    block_nil

theorem block_read (r : Read) : Block system rank [] [] (locked r.mutex (.read r)) :=
  block_locked (below_nil _) fun _ => .act (fun _ => block_nil) block_nil

/-- **Every operation takes its locks in order**, and releases them. -/
theorem ordered_program (op : Op) : Ordered system rank [] op.program := by
  refine Block.ordered ?_
  cases op with
  | put key value lease => exact block_put key value lease
  | delete key rangeEnd prevKvs => exact block_delete key rangeEnd prevKvs
  | txn compares success failure => exact block_txn compares success failure
  | read r => exact block_read r
  | grant now ttl => exact block_locked_act (below_nil _) fun s => rfl
  | revoke leaseId => exact block_revoke leaseId
  | keepAlive now leaseId => exact block_locked_act (below_nil _) fun s => rfl
  | attachKey leaseId key => exact block_locked_act (below_nil _) fun s => rfl
  | detachKey leaseId key => exact block_locked_act (below_nil _) fun s => rfl
  | checkExpiration now => exact block_checkExpiration now
  | registerWatcher req stream => exact block_takeId req stream false
  | cancelWatcher watchId => exact block_cancelWatcher watchId
  | notifyPut key kv prevKv revision =>
    exact block_locked (below_nil _) fun s => block_notifyCalls below_watch _ _ _
  | notifyDelete key kv revision =>
    exact block_locked (below_nil _) fun s => block_notifyCalls below_watch _ _ _
  | serve sid req =>
    cases req with
    | createRequest req => exact block_takeId req (some sid) true
    | cancelRequest watchId => exact block_cancelWatcher watchId
    | progressRequest => exact block_nil
    | notSet => exact block_nil

section Runs

variable {T : Type} [DecidableEq T]

theorem disciplined (env : Env) (evs : List (Locks.Event T Op)) :
    Disciplined system rank (Locks.run system (start T env) evs) :=
  disciplined_run ordered_program _ evs

/-- **A thread that runs an operation while all others are idle does what the operation does when
it is run to completion**, whatever has been run before. -/
theorem run_alone (env : Env) (evs : List (Locks.Event T Op))
    (hidle : ∀ t, (Locks.run system (start T env) evs).prog t = []) (t : T) (op : Op) :
    ∃ n, Locks.run system (start T env) (evs ++ .call t op :: List.replicate n (.resume t)) =
      idle T Mutex Act (op.exec (Locks.run system (start T env) evs).data) := by
  have hfree : ∀ m t', (Locks.run system (start T env) evs).holder m ≠ some t' := fun m t' hm =>
    unfinished_of_holds (disciplined env evs) hm (hidle t')
  obtain ⟨n, hn⟩ := drive (does_program (Locks.run system (start T env) evs).data op)
    ((disciplined env evs).call (hidle t) (ordered_program op))
    (fun m t' hm => absurd hm (hfree m t')) rfl (Function.update_self ..)
  refine ⟨n, ?_⟩
  rw [run_append, run_call system (hidle t)]
  refine hn.trans ?_
  rw [Function.update_idem, idle]
  congr 1
  funext t'
  rw [Function.update_apply, hidle, ite_self]

/-- **No deadlock.** However any number of threads interleave any operations, no thread waits for
a lock that it holds itself, there is no cycle of threads each waiting for a lock that the next
holds, and while a thread is in an operation, some thread can take a step. -/
theorem deadlock_free (env : Env) (evs : List (Locks.Event T Op)) :
    let y := Locks.run system (start T env) evs
    (∀ t, ¬ WaitsFor y t t) ∧ (∀ t, ¬ Relation.TransGen (WaitsFor y) t t) ∧
      ((∃ t, y.prog t ≠ []) → ∃ t, Moves system y t (Locks.step system y (.resume t))) := by
  intro y
  have hy : Disciplined system rank y := disciplined env evs
  refine ⟨fun t ht => no_cycle hy t (.single ht), no_cycle hy, ?_⟩
  rintro ⟨t, ht⟩
  obtain ⟨t', ht'⟩ := exists_canStep hy ht
  exact ⟨t', ht'.moves system⟩

end Runs

end EtcdLite.Threads
