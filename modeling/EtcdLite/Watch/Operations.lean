import EtcdLite.Watch.Delivery

/-!
# The operations that send to watchers

Puts, range deletions, registrations and cancellations (`WatchAct`): the change each makes to
a key of the store (`changes`), the responses it sends (`sends`), and what it leaves in the
registry. The watch callbacks, the loop over the registry and the historical events are all
accounted for by `sends`: each operation's streams are what sending those responses makes of
the streams before.
-/

namespace EtcdLite

open Server WatchManager

/-! ### The operations -/

/-- The stream of a new watcher takes the response that says the watcher is created. -/
def Server.takesCreated (s : Server) (req : WatchCreateRequest) (stream : Option StreamId) : Bool :=
  let w := s.watchManager.makeWatcher req stream
  (sendWatchResponse w (createdResponse w (some s.kvStore)) s.streams).1

/-- A call of `KVStore::Put`, `KVServiceImpl::DeleteRange`, `RegisterWatcher` or
`CancelWatcher`. -/
inductive WatchAct where
  | put (key value : Bytes) (lease : Int) (prevKv : Option KeyValue)
  | deleteRange (request : DeleteRangeRequest)
  | register (req : WatchCreateRequest) (stream : Option StreamId)
  | cancel (watchId : Int)

namespace WatchAct

/-- Running it. -/
def exec (s : Server) : WatchAct → Server
  | .put key value lease prevKv => (s.put key value lease prevKv).2
  | .deleteRange request => (KVService.deleteRange s request).2
  | .register req stream => (s.registerWatcher req stream).2.2
  | .cancel watchId => (s.cancelWatcher watchId).2

/-- The change it makes to a key of the store: the kind of change, and the key-value that is
put or removed. -/
def changes (s : Server) (k : Bytes) : WatchAct → List (EventType × KeyValue)
  | .put key value lease _ =>
    if key = k then
      [(.PUT, (putInfo (s.data k) k value lease (s.kvStore.revision + 1)).kv)]
    else []
  | .deleteRange r =>
    if keyInRange k r.key r.rangeEnd then (s.data k).toList.map fun info => (.DELETE, info.kv)
    else []
  | .register _ _ | .cancel _ => []

/-- The responses it sends. -/
def sends (s : Server) : WatchAct → List (Watcher × WatchResponse)
  | .put key value lease _ =>
    s.watchManager.notices key fun w =>
      putResponse w (putInfo (s.data key) key value lease (s.kvStore.revision + 1)).kv
        ((s.data key).map KeyInfo.kv) (s.kvStore.revision + 1)
  | .deleteRange r =>
    (s.matched r.key r.rangeEnd).flatMap fun e =>
      s.watchManager.notices e.2.kv.key fun w => deleteResponse w e.2.kv (s.kvStore.revision + 1)
  | .register req stream =>
    let w := s.watchManager.makeWatcher req stream
    (w, createdResponse w (some s.kvStore)) ::
      if s.takesCreated req stream = true ∧ req.startRevision > 0 then
        (s.kvStore.range w.key w.rangeEnd 0 false false).map fun kv => (w, historicalResponse w kv)
      else []
  | .cancel watchId =>
    (s.watchManager.watchers.find? watchId).toList.map fun w =>
      (w, { header := { clusterId := s.watchManager.clusterId, memberId := s.watchManager.memberId },
            watchId := watchId, canceled := true })

end WatchAct

/-! ### What an operation does -/

theorem put_streams (s : Server) (h : s.kvStore.putCallback = true) (key value : Bytes)
    (lease : Int) (prevKv : Option KeyValue) : (s.put key value lease prevKv).2.streams =
      sendAll s.streams ((WatchAct.put key value lease prevKv).sends s) := by
  rw [WatchAct.sends, ← notify_eq]
  unfold Server.put Server.data
  simp only [h, if_true]
  cases s.kvStore.data.find? key <;> rfl

theorem put_watchManager (s : Server) (key value : Bytes) (lease : Int) (prevKv : Option KeyValue) :
    (s.put key value lease prevKv).2.watchManager = s.watchManager :=
  exec_watchManager s (.put key value lease prevKv)

theorem foldl_deleteCallback_streams (kvs : List KeyValue) (s : Server) :
    (kvs.foldl (fun s kv => s.deleteCallback kv.key kv) s).streams =
      sendAll s.streams (kvs.flatMap fun kv =>
        s.watchManager.notices kv.key fun w => deleteResponse w kv s.kvStore.revision) := by
  induction kvs generalizing s with
  | nil => rfl
  | cons kv kvs ih =>
    rw [List.foldl_cons, ih, List.flatMap_cons, sendAll, sendAll, List.foldl_append]
    congr 1
    exact s.watchManager.notify_eq kv.key (fun w => deleteResponse w kv s.kvStore.revision) s.streams

theorem deleteRange_streams (s : Server) (h : s.kvStore.deleteCallback = true)
    (r : DeleteRangeRequest) : (KVService.deleteRange s r).2.streams =
      sendAll s.streams ((WatchAct.deleteRange r).sends s) := by
  show (s.delete r.key r.rangeEnd true).2.streams = _
  rw [delete_eq]
  have hd : ((s.setRevision (s.kvStore.revision + 1)).deleteMany r.key r.rangeEnd
      true).2.kvStore.deleteCallback = true := h
  simp only [hd, if_true]
  rw [foldl_deleteCallback_streams, WatchAct.sends]
  congr 1
  exact List.flatMap_map ..

theorem deleteRange_watchManager (s : Server) (r : DeleteRangeRequest) :
    (KVService.deleteRange s r).2.watchManager = s.watchManager :=
  (s.delete_snd r.key r.rangeEnd true).watchManager

/-- A registration whose stream does not take the first response. -/
theorem registerWatcher_failed {s : Server} {req : WatchCreateRequest} {stream : Option StreamId}
    (h : s.takesCreated req stream = false) : (s.registerWatcher req stream).2.2 =
      { s with
        watchManager := { s.watchManager with nextWatchId := s.watchManager.nextWatchId + 1 }
        streams := sendAll s.streams ((WatchAct.register req stream).sends s) } := by
  have h' : (sendWatchResponse (s.watchManager.makeWatcher req stream)
    (createdResponse (s.watchManager.makeWatcher req stream) (some s.kvStore)) s.streams).1 =
      false := h
  simp [Server.registerWatcher, WatchManager.registerWatcher, WatchAct.sends, sendAll, h, h']

/-- A registration whose stream takes it. -/
theorem registerWatcher_done {s : Server} {req : WatchCreateRequest} {stream : Option StreamId}
    (h : s.takesCreated req stream = true) : (s.registerWatcher req stream).2.2 =
      { s with
        watchManager := { s.watchManager with
          nextWatchId := s.watchManager.nextWatchId + 1
          watchers := s.watchManager.watchers.insert s.watchManager.nextWatchId
            (s.watchManager.makeWatcher req stream) }
        streams := sendAll s.streams ((WatchAct.register req stream).sends s) } := by
  have h' : (sendWatchResponse (s.watchManager.makeWatcher req stream)
    (createdResponse (s.watchManager.makeWatcher req stream) (some s.kvStore)) s.streams).1 =
      true := h
  by_cases hrev : req.startRevision > 0
  · simp [Server.registerWatcher, WatchManager.registerWatcher, WatchAct.sends, sendAll, h, h', hrev,
      sendHistoricalEvents, List.foldl_map]
    rfl
  · simp [Server.registerWatcher, WatchManager.registerWatcher, WatchAct.sends, sendAll, h, h', hrev]
    rfl

theorem cancelWatcher_streams (s : Server) (watchId : Int) :
    (s.cancelWatcher watchId).2.streams =
      sendAll s.streams ((WatchAct.cancel watchId).sends s) := by
  simp only [Server.cancelWatcher, WatchManager.cancelWatcher, WatchAct.sends]
  cases s.watchManager.watchers.find? watchId <;> rfl

/-- What a registration does: it gives out the next id, sends its responses, and puts the new
watcher in the registry if its stream takes the first. -/
structure Registered (s t : Server) (req : WatchCreateRequest) (stream : Option StreamId) : Prop where
  nextWatchId : t.watchManager.nextWatchId = s.watchManager.nextWatchId + 1
  streams : t.streams = sendAll s.streams ((WatchAct.register req stream).sends s)
  find? : ∀ i, t.watchManager.watchers.find? i =
    if i = s.watchManager.nextWatchId ∧ s.takesCreated req stream = true then
      some (s.watchManager.makeWatcher req stream)
    else s.watchManager.watchers.find? i

theorem registerWatcher_registered (s : Server) (req : WatchCreateRequest)
    (stream : Option StreamId) : Registered s (s.registerWatcher req stream).2.2 req stream := by
  cases h : s.takesCreated req stream with
  | false =>
    rw [registerWatcher_failed h]
    exact ⟨rfl, rfl, by simp [h]⟩
  | true =>
    rw [registerWatcher_done h]
    exact ⟨rfl, rfl, by simp [h]⟩

theorem cancelWatcher_find? (s : Server) (watchId i : Int) :
    (s.cancelWatcher watchId).2.watchManager.watchers.find? i =
      if i = watchId then none else s.watchManager.watchers.find? i := by
  simp only [Server.cancelWatcher, WatchManager.cancelWatcher]
  cases hw : s.watchManager.watchers.find? watchId with
  | none =>
    split_ifs with hi
    · rw [hi, hw]
    · rfl
  | some w => simp

theorem cancelWatcher_nextWatchId (s : Server) (watchId : Int) :
    (s.cancelWatcher watchId).2.watchManager.nextWatchId = s.watchManager.nextWatchId := by
  simp only [Server.cancelWatcher, WatchManager.cancelWatcher]
  cases s.watchManager.watchers.find? watchId <;> rfl

/-! ### Servers with their registry in order -/

/-- A server wired by its constructor, with its entries dated, its registry in order, and every
id on a stream given out already. -/
structure Watched (s : Server) : Prop where
  dated : s.Dated
  putCallback : s.kvStore.putCallback = true
  deleteCallback : s.kvStore.deleteCallback = true
  registry : s.watchManager.InOrder
  ids : IdsBelow s.streams s.watchManager.nextWatchId

theorem watched_new (env : Env) : Watched (Server.new env) where
  dated := by
    refine ⟨Int.le_refl 1, ?_⟩
    intro k info hk
    cases hk
  putCallback := rfl
  deleteCallback := rfl
  registry := by
    refine ⟨?_, ?_, ?_⟩ <;>
      intro i w hw <;> cases hw
  ids := by
    intro sid r hr
    cases hr

/-- The streams after an operation are those before, and its responses. -/
theorem exec_streams {s : Server} (h : Watched s) (a : WatchAct) :
    (a.exec s).streams = sendAll s.streams (a.sends s) := by
  cases a with
  | put key value lease prevKv => exact put_streams s h.putCallback key value lease prevKv
  | deleteRange r => exact deleteRange_streams s h.deleteCallback r
  | register req stream => exact (registerWatcher_registered s req stream).streams
  | cancel watchId => exact cancelWatcher_streams s watchId

/-- Every response of a registration carries the next id. -/
theorem watchId_of_sends_register {s : Server} {req : WatchCreateRequest}
    {stream : Option StreamId} {e : Watcher × WatchResponse}
    (he : e ∈ (WatchAct.register req stream).sends s) :
    e.2.watchId = s.watchManager.nextWatchId := by
  rcases List.mem_cons.mp he with rfl | he
  · rfl
  · split_ifs at he
    · obtain ⟨kv, -, rfl⟩ := List.mem_map.mp he
      rfl
    · cases he

/-- Every response of an operation carries an id that has been given out by its end. -/
theorem sends_id_lt {s : Server} (h : Watched s) (a : WatchAct) :
    ∀ e ∈ a.sends s, e.2.watchId < (a.exec s).watchManager.nextWatchId := by
  intro e he
  cases a with
  | put key value lease prevKv =>
    rw [WatchAct.exec, put_watchManager]
    rw [WatchAct.sends] at he
    exact notices_id_lt h.registry (fun _ => rfl) e he
  | deleteRange r =>
    obtain ⟨x, -, hx⟩ := List.mem_flatMap.mp he
    rw [WatchAct.exec, deleteRange_watchManager]
    exact notices_id_lt h.registry (fun _ => rfl) e hx
  | register req stream =>
    rw [WatchAct.exec, (registerWatcher_registered s req stream).nextWatchId]
    rw [watchId_of_sends_register he]
    exact Int.lt_succ _
  | cancel watchId =>
    rw [WatchAct.exec, cancelWatcher_nextWatchId]
    obtain ⟨w, hw, rfl⟩ := List.mem_map.mp he
    exact h.registry.id_lt watchId w (Option.mem_toList.mp hw)

theorem nextWatchId_le_exec (s : Server) (a : WatchAct) :
    s.watchManager.nextWatchId ≤ (a.exec s).watchManager.nextWatchId := by
  cases a with
  | put key value lease prevKv => exact (congrArg _ (put_watchManager s key value lease prevKv)).ge
  | deleteRange r => exact (congrArg _ (deleteRange_watchManager s r)).ge
  | register req stream =>
    have hnext := (registerWatcher_registered s req stream).nextWatchId
    rw [WatchAct.exec]
    omega
  | cancel watchId => exact (cancelWatcher_nextWatchId s watchId).ge

/-- Every operation keeps the registry in order. -/
theorem exec_inOrder {s : Server} (h : s.watchManager.InOrder) (a : WatchAct) :
    (a.exec s).watchManager.InOrder := by
  cases a with
  | put key value lease prevKv =>
    rw [WatchAct.exec, put_watchManager]
    exact h
  | deleteRange r =>
    rw [WatchAct.exec, deleteRange_watchManager]
    exact h
  | register req stream =>
    have hnext := (registerWatcher_registered s req stream).nextWatchId
    refine h.of_found (by rw [WatchAct.exec]; omega) fun i w hw => ?_
    rw [WatchAct.exec, (registerWatcher_registered s req stream).find?] at hw
    split_ifs at hw with hnew
    · -- It is the new one.
      cases hw
      obtain rfl := hnew.1
      refine .inr ⟨rfl, ?_, rfl⟩
      rw [WatchAct.exec]
      omega
    · exact .inl hw
  | cancel watchId =>
    refine h.of_found (cancelWatcher_nextWatchId s watchId).ge fun i w hw => ?_
    rw [WatchAct.exec, cancelWatcher_find?] at hw
    split_ifs at hw
    exact .inl hw

/-- No operation changes which callbacks are set. -/
theorem exec_callbacks (s : Server) (a : WatchAct) :
    (a.exec s).kvStore.putCallback = s.kvStore.putCallback ∧
      (a.exec s).kvStore.deleteCallback = s.kvStore.deleteCallback := by
  cases a with
  | put key value lease prevKv =>
    rw [WatchAct.exec, put_kvStore]
    exact ⟨rfl, rfl⟩
  | deleteRange r =>
    show (s.delete r.key r.rangeEnd true).2.kvStore.putCallback = _ ∧
      (s.delete r.key r.rangeEnd true).2.kvStore.deleteCallback = _
    rw [delete_kvStore]
    exact ⟨rfl, rfl⟩
  | register req stream => exact ⟨rfl, rfl⟩
  | cancel watchId => exact ⟨rfl, rfl⟩

theorem Watched.exec {s : Server} (h : Watched s) (a : WatchAct) : Watched (a.exec s) where
  dated := by
    cases a with
    | put key value lease prevKv => exact h.dated.exec (.put key value lease prevKv)
    | deleteRange r => exact h.dated.exec (.delete r.key r.rangeEnd true)
    | register req stream => exact ⟨h.dated.one_le, h.dated.data⟩
    | cancel watchId => exact ⟨h.dated.one_le, h.dated.data⟩
  putCallback := (exec_callbacks s a).1.trans h.putCallback
  deleteCallback := (exec_callbacks s a).2.trans h.deleteCallback
  registry := exec_inOrder h.registry a
  ids := by
    rw [exec_streams h a]
    refine sendAll_idsBelow ?_ (sends_id_lt h a)
    intro sid r hr
    have hlt := h.ids sid r hr
    have hle := nextWatchId_le_exec s a
    omega

end EtcdLite
