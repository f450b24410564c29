import EtcdLite.Threads.Programs

/-!
# A thread alone

What the program of an operation does, while no other thread steps, is what the operation does
when it is run to completion (`does_program`): the programs are those of the functions of
`EtcdLite.Model.Server` and of the handler of a stream, taken apart at the locks.
-/

namespace EtcdLite.Threads

open Server WatchManager WatchSystem Locks

/-- What an operation does to the server, run to completion. -/
def Op.exec (s : Server) : Op → Server
  | .put key value lease => (s.put key value lease none).2
  | .delete key rangeEnd prevKvs => (s.delete key rangeEnd prevKvs).2
  | .txn compares success failure => (s.txn compares success failure).2
  | .grant now ttl => s.grant now ttl
  | .revoke leaseId => (s.revoke leaseId).2
  | .keepAlive now leaseId => s.keepAlive now leaseId
  | .attachKey leaseId key => { s with leaseManager := (s.leaseManager.attachKey leaseId key).2 }
  | .detachKey leaseId key => { s with leaseManager := (s.leaseManager.detachKey leaseId key).2 }
  | .checkExpiration now => s.checkExpiration now
  | .registerWatcher req stream => (s.registerWatcher req stream).2.2
  | .cancelWatcher watchId => (s.cancelWatcher watchId).2
  | .notifyPut key kv prevKv revision =>
    { s with streams := s.watchManager.notifyPut key kv prevKv revision s.streams }
  | .notifyDelete key kv revision =>
    { s with streams := s.watchManager.notifyDelete key kv revision s.streams }
  | .serve sid req => (WatchService.serve s sid req).2
  | .read _ => s

/-- An action under a lock. -/
theorem does_locked {s s' : Server} {m : Mutex} {a : Act}
    (h : Does system (a.run s).1 (a.run s).2 s') : Does system s (locked m a) s' :=
  .lock (.act (h.append (.unlock (.done _))))

/-- An action that no call follows. -/
theorem does_act {s s' : Server} {a : Act} (h : a.run s = (s', [])) :
    Does system s [.act a] s' := by
  refine .act ?_
  rw [show system.run a s = a.run s from rfl, h]
  exact .done s'

theorem does_locked_act {s s' : Server} {m : Mutex} {a : Act} (h : a.run s = (s', [])) :
    Does system s (locked m a) s' := by
  refine does_locked ?_
  rw [h]
  exact .done s'

/-! ### Writes to streams -/

/-- `SendWatchResponse`, and what follows it. -/
theorem does_sendCall {s s' : Server} {w : Watcher} {response : WatchResponse} {writer : Writer}
    (hrelease : writer.release = [.unlock (.stream w.watchId)])
    (h : Does system (send s w response).2 (writer.next (send s w response).1) s') :
    Does system s (sendCall w response writer) s' := by
  rw [sendCall]
  cases hw : w.stream with
  | none =>
    rw [send, sendWatchResponse, hw] at h
    exact h
  | some sid =>
    have hsend : send s w response = (((s.streams sid).write response).1,
        { s with streams := Function.update s.streams sid ((s.streams sid).write response).2 }) := by
      rw [send, sendWatchResponse, hw]
    rw [hsend] at h
    have hrest : Does system
        { s with streams := Function.update s.streams sid ((s.streams sid).write response).2 }
        (writer.release ++ writer.next ((s.streams sid).write response).1) s' := by
      rw [hrelease]
      exact .unlock h
    rw [← List.append_nil (writer.release ++ _)] at hrest
    exact .lock (.act (.act hrest))

/-- Writes, one after another, whatever becomes of them. -/
theorem does_sendCalls (s : Server) (sends : List (Watcher × WatchResponse)) (writer : Watcher → Writer)
    (hwriter : ∀ w, (writer w).release = [.unlock (.stream w.watchId)] ∧
      ∀ ok, (writer w).next ok = []) :
    Does system s (sends.flatMap fun e => sendCall e.1 e.2 (writer e.1))
      { s with streams := sendAll s.streams sends } := by
  induction sends generalizing s with
  | nil => exact .done s
  | cons e sends ih =>
    rw [List.flatMap_cons]
    have hone : Does system s (sendCall e.1 e.2 (writer e.1)) (send s e.1 e.2).2 := by
      refine does_sendCall (hwriter e.1).1 ?_
      rw [(hwriter e.1).2]
      exact .done _
    exact hone.append (ih _)

theorem does_notifyCalls (s : Server) (key : Bytes) (response : Watcher → WatchResponse) :
    Does system s (notifyCalls s.watchManager key response)
      { s with streams := s.watchManager.notify key response s.streams } := by
  rw [notify_eq]
  exact does_sendCalls s _ .notice fun w => ⟨rfl, fun ok => rfl⟩

theorem does_putCallback (s : Server) (key : Bytes) (kv : KeyValue) (prevKv : Option KeyValue) :
    Does system s [.act (.putCallback key kv prevKv)] (s.putCallback key kv prevKv) :=
  .act ((does_locked (a := .notifyPut key kv prevKv s.kvStore.currentRevision)
    (does_notifyCalls s key _)).append (.done _))

theorem does_deleteCallback (s : Server) (kv : KeyValue) :
    Does system s [.act (.deleteCallback kv)] (s.deleteCallback kv.key kv) :=
  .act ((does_locked (a := .notifyDelete kv.key kv s.kvStore.currentRevision)
    (does_notifyCalls s kv.key _)).append (.done _))

theorem does_putCallbackCall (s : Server) (b : Bool) (key : Bytes) (kv : KeyValue)
    (prevKv : Option KeyValue) : Does system s (putCallbackCall b key kv prevKv)
      (if b then s.putCallback key kv prevKv else s) := by
  rw [putCallbackCall]
  split_ifs
  · exact does_putCallback s key kv prevKv
  · exact .done s

theorem does_deleteCallbackCalls (s : Server) (b : Bool) (kvs : List KeyValue) :
    Does system s (deleteCallbackCalls b kvs)
      (if b then kvs.foldl (fun s kv => s.deleteCallback kv.key kv) s else s) := by
  rw [deleteCallbackCalls, List.map_eq_flatMap]
  split_ifs
  · exact does_flatMap does_deleteCallback kvs s
  · exact .done s

/-! ### The store -/

theorem does_relinkCalls (s : Server) (b : Bool) (old : Option KeyInfo) (key : Bytes) (lease : Int) :
    Does system s (relinkCalls b old key lease)
      { s with leaseManager := relink b old key lease s.leaseManager } := by
  rw [← relink_eq, relinkCalls]
  split_ifs
  · exact (does_locked_act rfl).append (does_locked_act rfl)
  · exact does_locked_act rfl
  · exact does_locked_act rfl
  · exact .done s

theorem does_detachAndEraseCalls (s : Server) (b : Bool) (pairs : List (Bytes × Int)) :
    Does system s (detachAndEraseCalls b pairs)
      { s with
        kvStore := { s.kvStore with
          data := (detachAndErase b pairs s.kvStore.data s.leaseManager).1 }
        leaseManager := (detachAndErase b pairs s.kvStore.data s.leaseManager).2 } := by
  unfold detachAndEraseCalls
  induction pairs generalizing s with
  | nil => exact .done s
  | cons e pairs ih =>
    obtain ⟨k, lease⟩ := e
    rw [List.flatMap_cons]
    have hone : Does system s
        ((if lease > 0 ∧ b then locked .lease (.detachKey lease k) else []) ++ [.act (.erase k)])
        { s with
          kvStore := { s.kvStore with data := s.kvStore.data.erase k }
          leaseManager := if lease > 0 ∧ b then (s.leaseManager.detachKey lease k).2
            else s.leaseManager } := by
      split_ifs
      · exact (does_locked_act rfl).append (does_act rfl)
      · exact does_act rfl
    exact hone.append (ih _)

theorem does_put (s : Server) (key value : Bytes) (lease : Int) :
    Does system s (locked .store (.put key value lease)) (s.put key value lease none).2 := by
  refine does_locked ?_
  have hput : (s.put key value lease none).2 =
      let info := putInfo (s.kvStore.data.find? key) key value lease (s.kvStore.revision + 1)
      let s' := { s with
        kvStore := { s.kvStore with
          revision := s.kvStore.revision + 1, data := s.kvStore.data.insert key info }
        leaseManager :=
          relink s.kvStore.leaseManager (s.kvStore.data.find? key) key lease s.leaseManager }
      if s.kvStore.putCallback then
        s'.putCallback key info.kv ((s.kvStore.data.find? key).map KeyInfo.kv)
      else s' := by
    rw [← relink_eq, Server.put]
    cases s.kvStore.data.find? key <;> rfl
  rw [hput]
  exact (does_relinkCalls _ _ _ _ _).append (.act (does_putCallbackCall _ _ _ _ _))

theorem does_delete (s : Server) (key rangeEnd : Bytes) (prevKvs : Bool) :
    Does system s (locked .store (.delete key rangeEnd prevKvs)) (s.delete key rangeEnd prevKvs).2 := by
  refine does_locked ?_
  have hmatched : (if rangeEnd.isEmpty then
        (s.kvStore.data.find? key).toList.map fun info => (key, info)
      else s.kvStore.data.toList.filter fun e => keyInRange e.1 key rangeEnd) =
        s.matched key rangeEnd := by
    cases rangeEnd with
    | nil => exact (s.matched_nil key).symm
    | cons b bs => rfl
  have hdelete : (s.delete key rangeEnd prevKvs).2 =
      let kvs := if prevKvs then (s.matched key rangeEnd).map fun e => e.2.kv else []
      let s' := { s with
        kvStore := { s.kvStore with
          revision := s.kvStore.revision + 1, data := (s.eraseMatched key rangeEnd).1 }
        leaseManager := (s.eraseMatched key rangeEnd).2 }
      if s.kvStore.deleteCallback then kvs.foldl (fun s kv => s.deleteCallback kv.key kv) s'
      else s' := by
    rw [delete_eq]
    rfl
  rw [hdelete]
  simp only [Act.run, hmatched]
  exact (does_detachAndEraseCalls _ _ _).append (does_deleteCallbackCalls _ _ _)

theorem does_txnOp (s : Server) (revision : Int) (op : RequestOp) :
    Does system s [.act (.txnOp revision op)] (s.txnOp revision op).2 := by
  refine .act ?_
  rw [List.append_nil]
  cases op with
  | requestPut r =>
    have hput : (s.txnOp revision (.requestPut r)).2 =
        { s with
          kvStore := { s.kvStore with
            data := s.kvStore.data.insert r.key
              (putInfo (s.kvStore.data.find? r.key) r.key r.value r.lease revision) }
          leaseManager :=
            relink s.kvStore.leaseManager (s.kvStore.data.find? r.key) r.key r.lease
              s.leaseManager } := by
      rw [← relink_eq]
      rfl
    rw [hput]
    exact (does_relinkCalls _ _ _ _ _).append (does_act rfl)
  | requestDeleteRange r => exact does_detachAndEraseCalls _ _ _
  | requestRange r => exact does_act rfl
  | requestTxn compares success failure => exact .done s
  | notSet => exact .done s

theorem does_txn (s : Server) (compares : List Compare) (success failure : List RequestOp) :
    Does system s (locked .store (.txn compares success failure))
      (s.txn compares success failure).2 := by
  refine does_locked ?_
  rw [txn_snd]
  dsimp only [Act.run]
  generalize s.chosenOps compares success failure = ops
  generalize s.setRevision (s.kvStore.revision + 1) = s'
  induction ops generalizing s' with
  | nil => exact .done s'
  | cons op ops ih => exact (does_txnOp s' _ op).append (ih _)

/-! ### The lease manager -/

theorem does_revoke (s : Server) (leaseId : Int) :
    Does system s [.lock .lease, .act (.getLeaseKeys leaseId)] (s.revoke leaseId).2 := by
  rw [revoke]
  cases hkeys : s.leaseManager.getLeaseKeys leaseId with
  | error rc =>
    refine .lock (.act ?_)
    simp only [system, Act.run, hkeys]
    exact .unlock (.done s)
  | ok keys =>
    refine .lock (.act ?_)
    simp only [system, Act.run, hkeys]
    refine .unlock ((Does.append ?_ (does_locked_act rfl)).append (.done _))
    split_ifs
    · exact does_flatMap (fun s key => does_delete s key [] false) keys s
    · exact .done s

theorem does_checkExpiration (s : Server) (now : Int) :
    Does system s [.lock .lease, .act (.expiredLeases now)] (s.checkExpiration now) :=
  .lock (.act (.unlock ((does_flatMap does_revoke (s.leaseManager.expiredLeases now) s).append
    (.done _))))

/-! ### The watch manager -/

theorem does_cancelWatcher (s : Server) (watchId : Int) :
    Does system s (locked .watch (.cancelWatcher watchId)) (s.cancelWatcher watchId).2 := by
  refine does_locked ?_
  rw [Server.cancelWatcher, WatchManager.cancelWatcher, Act.run]
  cases s.watchManager.watchers.find? watchId with
  | none => exact .done s
  | some w => exact (does_sendCall rfl (.done _)).append (does_act rfl)

/-- `SendHistoricalEvents`, if the request asks for it, and the insertion. -/
theorem does_historyCall (s : Server) (w : Watcher) :
    Does system s (Writer.historyCall w) (WatchSystem.insertWatcher { s with
      streams := if w.startRevision > 0 then sendHistoricalEvents w s.kvStore s.streams
        else s.streams } w) := by
  rw [Writer.historyCall]
  split_ifs
  · have hsend := does_sendCalls s ((s.kvStore.range w.key w.rangeEnd 0 false false).map fun kv =>
      (w, historicalResponse w kv)) .historical fun w => ⟨rfl, fun ok => rfl⟩
    rw [List.flatMap_map, sendAll, List.foldl_map] at hsend
    exact .lock (.act (.unlock ((hsend.append (does_locked_act rfl)).append (.done _))))
  · exact does_locked_act rfl

/-- The handler writes that a registration has failed. -/
theorem does_refuse (s : Server) (sid : StreamId) (watchId : Int) :
    Does system s [.act (.refuse sid watchId)] (WatchService.write s sid
      (WatchService.failedResponse watchId (WatchService.responseHeader s))) :=
  .act (.act (.act (.done _)))

/-- A registration, until the created response has been written, and what follows. -/
theorem does_takeId {s s' : Server} {req : WatchCreateRequest} {stream : Option StreamId}
    {handler : Bool}
    (h : let w := s.watchManager.makeWatcher req stream
      let sent := send (takeId s) w (createdAt w s.kvStore.revision)
      Does system sent.2 ((Writer.created w handler).next sent.1) s') :
    Does system s [.act (.takeId req stream handler)] s' :=
  .act (.act ((does_sendCall rfl h).append (.done _)))

/-- Whether the created response is written. -/
theorem send_created (s : Server) (req : WatchCreateRequest) (stream : Option StreamId) :
    (send (takeId s) (s.watchManager.makeWatcher req stream)
      (createdAt (s.watchManager.makeWatcher req stream) s.kvStore.revision)).1 =
      s.takesCreated req stream := rfl

/-- A registration whose created response is written, whoever has called it. -/
theorem does_inserted {s : Server} {req : WatchCreateRequest} {stream : Option StreamId}
    {handler : Bool} (h : s.takesCreated req stream = true) :
    Does system s [.act (.takeId req stream handler)] (s.registerWatcher req stream).2.2 := by
  refine does_takeId ?_
  dsimp only
  rw [registerWatcher_inserted h, send_created, h]
  exact does_historyCall _ _

theorem does_registerWatcher (s : Server) (req : WatchCreateRequest) (stream : Option StreamId) :
    Does system s [.act (.takeId req stream false)] (s.registerWatcher req stream).2.2 := by
  cases hok : s.takesCreated req stream with
  | false =>
    refine does_takeId ?_
    dsimp only
    rw [registerWatcher_refused hok, send_created, hok]
    exact .done _
  | true => exact does_inserted hok

theorem does_serve (s : Server) (sid : StreamId) (req : WatchCreateRequest) :
    Does system s [.act (.takeId req (some sid) true)]
      (WatchService.serve s sid (.createRequest req)).2 := by
  cases hok : s.takesCreated req (some sid) with
  | false =>
    refine does_takeId ?_
    dsimp only
    rw [(serve_failed hok).2, send_created, hok]
    exact does_refuse _ _ _
  | true =>
    rw [(serve_done hok).2]
    exact does_inserted hok

/-- **A program, run while no other thread steps, does what the operation does when it is run to
completion.** -/
theorem does_program (s : Server) (op : Op) : Does system s op.program (op.exec s) := by
  cases op with
  | put key value lease => exact does_put s key value lease
  | delete key rangeEnd prevKvs => exact does_delete s key rangeEnd prevKvs
  | txn compares success failure => exact does_txn s compares success failure
  | read r => exact does_locked (.act (.done s))
  | grant now ttl => exact does_locked_act rfl
  | revoke leaseId => exact does_revoke s leaseId
  | keepAlive now leaseId => exact does_locked_act rfl
  | attachKey leaseId key => exact does_locked_act rfl
  | detachKey leaseId key => exact does_locked_act rfl
  | checkExpiration now => exact does_checkExpiration s now
  | registerWatcher req stream => exact does_registerWatcher s req stream
  | cancelWatcher watchId => exact does_cancelWatcher s watchId
  | notifyPut key kv prevKv revision => exact does_locked (does_notifyCalls s key _)
  | notifyDelete key kv revision => exact does_locked (does_notifyCalls s key _)
  | serve sid req =>
    cases req with
    | createRequest req => exact does_serve s sid req
    | cancelRequest watchId => exact does_cancelWatcher s watchId
    | progressRequest => exact .done s
    | notSet => exact .done s

end EtcdLite.Threads
