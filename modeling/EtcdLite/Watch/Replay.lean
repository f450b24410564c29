import EtcdLite.Lib.Replay
import EtcdLite.Kv.RangeQuery
import EtcdLite.Watch.Operations

/-!
# Watch replay

A watcher whose stream takes every write can follow its range of the store. Replaying the
events it has been delivered, over what the range held when it was registered, or over
nothing when it asked for history, gives what the range holds now (`watch_replay`), whatever
the other watchers do and whatever becomes of the writes to their streams.

The step lemma is `exec_delivers`: an operation delivers, for each key of the range, exactly
the change it makes to the key. It rests on the store and the watch manager agreeing on which
keys are in a range (`keyMatchesWatcher_eq`), though each has its own code for it.
-/

namespace EtcdLite

open Server WatchManager

/-! ### Events as changes -/

/-- The change an event tells of. -/
def changeOf (type : EventType) (kv : KeyValue) : Change Bytes KeyValue :=
  match type with
  | .PUT => .set kv.key kv
  | .DELETE => .unset kv.key

/-- The change the event tells of: a `PUT` stores its key-value under its key, a `DELETE`
removes the key. -/
def Event.change (e : Event) : Change Bytes KeyValue := changeOf e.type e.kv

/-- What the store holds of a range. -/
def Server.inRange (s : Server) (key rangeEnd : Bytes) (k : Bytes) : Option KeyValue :=
  if keyInRange k key rangeEnd then (s.kvStore.data.find? k).map KeyInfo.kv else none

theorem changeOf_key (type : EventType) (kv : KeyValue) : (changeOf type kv).key = kv.key := by
  cases type <;> rfl

/-- The changes to a key that a list of events tells of. -/
theorem filter_change (events : List Event) (k : Bytes) :
    (events.map Event.change).filter (fun c => c.key = k) =
      ((events.filter fun e => e.kv.key = k).map fun e => (e.type, e.kv)).map fun p =>
        changeOf p.1 p.2 := by
  rw [List.filter_map, List.map_map]
  congr 1
  refine List.filter_congr fun e _ => ?_
  simp [Event.change, changeOf_key]

/-! ### A step -/

/-- The events an operation delivers to a watcher. -/
def newEvents (s : Server) (a : WatchAct) (sid : StreamId) (watchId : Int) : List Event :=
  (a.sends s).flatMap (deliveredBy sid watchId)

section Step

variable {s : Server} {i : Int} {w : Watcher} {sid : StreamId}

/-- What a put delivers. -/
theorem newEvents_put (h : Watched s) (hw : s.watchManager.watchers.find? i = some w)
    (hsid : w.stream = some sid) (key value : Bytes) (lease : Int) (prevKv : Option KeyValue)
    (k : Bytes) :
    ((newEvents s (.put key value lease prevKv) sid i).filter fun e => e.kv.key = k).map
        (fun e => (e.type, e.kv)) =
      if keyInRange k w.key w.rangeEnd then (WatchAct.put key value lease prevKv).changes s k
      else [] := by
  rw [newEvents, WatchAct.sends, notices_deliveredBy h.registry hw hsid key fun _ => rfl,
    keyMatchesWatcher_eq]
  by_cases hk : key = k
  · subst hk
    by_cases hr : keyInRange key w.key w.rangeEnd = true
    · simp [hr, WatchAct.changes, putResponse, putInfo]
    · simp [hr]
  · by_cases hr : keyInRange key w.key w.rangeEnd = true
    · simp [hr, hk, WatchAct.changes, putResponse, putInfo]
    · simp [hr, hk, WatchAct.changes]

/-- What a range deletion delivers. -/
theorem newEvents_deleteRange (h : Watched s) (hw : s.watchManager.watchers.find? i = some w)
    (hsid : w.stream = some sid) (r : DeleteRangeRequest) (k : Bytes) :
    ((newEvents s (.deleteRange r) sid i).filter fun e => e.kv.key = k).map
        (fun e => (e.type, e.kv)) =
      if keyInRange k w.key w.rangeEnd then (WatchAct.deleteRange r).changes s k else [] := by
  have hkey : ∀ e ∈ s.kvStore.data.toList, e.2.kv.key = e.1 := fun e he =>
    (h.dated.data e.1 e.2 (UnorderedMap.mem_toList.mp he)).key
  -- Each entry that is deleted and in the watcher's range gives one event.
  have hevents : newEvents s (.deleteRange r) sid i = s.kvStore.data.toList.flatMap fun e =>
      if keyInRange e.1 r.key r.rangeEnd ∧ keyInRange e.1 w.key w.rangeEnd then
        [{ type := .DELETE, kv := e.2.kv }]
      else [] := by
    rw [newEvents, WatchAct.sends, List.flatMap_assoc, matched, UnorderedMap.flatMap_filter]
    refine List.flatMap_congr fun e he => ?_
    rw [notices_deliveredBy h.registry hw hsid e.2.kv.key fun _ => rfl, keyMatchesWatcher_eq,
      hkey e he]
    by_cases hr : keyInRange e.1 r.key r.rangeEnd = true <;>
      by_cases hr' : keyInRange e.1 w.key w.rangeEnd = true <;> simp [hr, hr', deleteResponse]
  rw [hevents, List.filter_flatMap, List.map_flatMap,
    UnorderedMap.flatMap_toList s.kvStore.data k]
  · cases hd : s.kvStore.data.find? k with
    | none => simp [WatchAct.changes, Server.data, hd]
    | some info =>
      have hk : info.kv.key = k := (h.dated.data k info hd).key
      by_cases hr : keyInRange k r.key r.rangeEnd = true <;>
        by_cases hr' : keyInRange k w.key w.rangeEnd = true <;>
          simp [hr, hr', hk, WatchAct.changes, Server.data, hd]
  · intro e he hne
    have hk : e.2.kv.key ≠ k := by
      rw [hkey e he]
      exact hne
    split_ifs <;> simp [hk]

/-- A registration delivers nothing to the watchers there are. -/
theorem newEvents_register (h : Watched s) (hw : s.watchManager.watchers.find? i = some w)
    (req : WatchCreateRequest) (stream : Option StreamId) :
    newEvents s (.register req stream) sid i = [] := by
  have hlt := h.registry.id_lt i w hw
  rw [newEvents, List.flatMap_eq_nil_iff]
  intro e he
  have hid := watchId_of_sends_register he
  refine if_neg fun hboth => ?_
  have hsame := hboth.2
  omega

/-- A cancellation delivers no events. -/
theorem newEvents_cancel (watchId : Int) : newEvents s (.cancel watchId) sid i = [] := by
  rw [newEvents, List.flatMap_eq_nil_iff]
  intro e he
  obtain ⟨w, -, rfl⟩ := List.mem_map.mp he
  exact ite_self _

/-- **Each operation delivers to a watcher, for each key of its range, exactly the change it
makes to the key**, and nothing for another key. -/
theorem exec_delivers (h : Watched s) (hw : s.watchManager.watchers.find? i = some w)
    (hsid : w.stream = some sid) (a : WatchAct) (k : Bytes) :
    ((newEvents s a sid i).filter fun e => e.kv.key = k).map (fun e => (e.type, e.kv)) =
      if keyInRange k w.key w.rangeEnd then a.changes s k else [] := by
  cases a with
  | put key value lease prevKv => exact newEvents_put h hw hsid key value lease prevKv k
  | deleteRange r => exact newEvents_deleteRange h hw hsid r k
  | register req stream =>
    rw [newEvents_register h hw]
    simp [WatchAct.changes]
  | cancel watchId =>
    rw [newEvents_cancel]
    simp [WatchAct.changes]

/-- The changes of an operation are what it does to the store. -/
theorem exec_changes (h : Watched s) (a : WatchAct) (k : Bytes) {m : Bytes → Option KeyValue}
    (hm : m k = (s.data k).map KeyInfo.kv) :
    Change.replay m ((a.changes s k).map fun p => changeOf p.1 p.2) k =
      ((a.exec s).data k).map KeyInfo.kv := by
  cases a with
  | put key value lease prevKv =>
    rw [WatchAct.exec, data_put]
    by_cases hk : key = k
    · subst hk
      simp [WatchAct.changes, changeOf, Change.replay, Change.apply, putInfo]
    · simp [WatchAct.changes, hk, Change.replay, Function.update_of_ne (Ne.symm hk), hm]
  | deleteRange r =>
    rw [WatchAct.exec, congrFun (data_deleteRange s r) k]
    by_cases hr : keyInRange k r.key r.rangeEnd = true
    · cases hk : s.data k with
      | none => simp [WatchAct.changes, hr, hk, Change.replay, hm]
      | some info =>
        have hkey : info.kv.key = k := (h.dated.data k info hk).key
        simp [WatchAct.changes, hr, hk, Change.replay, changeOf, Change.apply, hkey]
    · simp [WatchAct.changes, hr, Change.replay, hm]
  | register req stream => exact hm
  | cancel watchId => exact hm

end Step

/-! ### Runs -/

/-- The watcher `w`, as long as it is registered, can follow its range from `base`. -/
structure Follows (w : Watcher) (sid : StreamId) (base : Bytes → Option KeyValue) (s : Server) :
    Prop where
  watched : Watched s
  writable : Writable s.streams sid
  /-- Its id has been given out, so no other watcher will have it. -/
  given : w.watchId < s.watchManager.nextWatchId
  /-- No other watcher has it. -/
  same : ∀ w', s.watchManager.watchers.find? w.watchId = some w' → w' = w
  replay : (s.watchManager.watchers.find? w.watchId).isSome →
    Change.replay base ((delivered s.streams sid w.watchId).map Event.change) =
      s.inRange w.key w.rangeEnd

/-- A watcher that is registered after an operation, and whose id was given out before, was
registered before. -/
theorem find?_of_exec {s : Server} {a : WatchAct} {i : Int} {w : Watcher}
    (hi : i < s.watchManager.nextWatchId)
    (hw : (a.exec s).watchManager.watchers.find? i = some w) :
    s.watchManager.watchers.find? i = some w := by
  cases a with
  | put key value lease prevKv => rwa [WatchAct.exec, put_watchManager] at hw
  | deleteRange r => rwa [WatchAct.exec, deleteRange_watchManager] at hw
  | register req stream =>
    rw [WatchAct.exec, (registerWatcher_registered s req stream).find?] at hw
    split_ifs at hw with hnew
    · omega
    · exact hw
  | cancel watchId =>
    rw [WatchAct.exec, cancelWatcher_find?] at hw
    split_ifs at hw
    exact hw

/-- A watcher's events after an operation are those before and the new ones. -/
theorem exec_delivered {s : Server} (h : Watched s) {sid : StreamId}
    (hwr : Writable s.streams sid) (a : WatchAct) (i : Int) :
    delivered (a.exec s).streams sid i = delivered s.streams sid i ++ newEvents s a sid i := by
  rw [exec_streams h, delivered_sendAll hwr, newEvents]

/-- Every operation keeps a watcher following. -/
theorem Follows.exec {w : Watcher} {sid : StreamId} {base : Bytes → Option KeyValue} {s : Server}
    (h : Follows w sid base s) (hsid : w.stream = some sid) (a : WatchAct) :
    Follows w sid base (a.exec s) where
  watched := h.watched.exec a
  writable := by
    rw [exec_streams h.watched]
    exact sendAll_writable h.writable _
  given := by
    have hlt := h.given
    have hle := nextWatchId_le_exec s a
    omega
  same w' hw' := h.same w' (find?_of_exec h.given hw')
  replay := by
    intro hlive
    obtain ⟨w', hw'⟩ := Option.isSome_iff_exists.mp hlive
    have hbefore := find?_of_exec h.given hw'
    obtain rfl := h.same w' hbefore
    have hreplay := h.replay (by rw [hbefore]; rfl)
    funext k
    rw [exec_delivered h.watched h.writable, List.map_append]
    have hnew := exec_delivers h.watched hbefore hsid a k
    rw [Change.replay_step ((filter_change _ k).trans (congrArg _ hnew)) (congrFun hreplay k)]
    unfold Server.inRange
    split_ifs with hr
    · exact exec_changes h.watched a k (by rw [if_pos hr]; rfl)
    · exact if_neg hr

/-! ### Registration -/

/-- Of the entries of a range, the one with a given key is the one in the store. -/
theorem range_filter {s : Server} (h : s.Dated) (key rangeEnd k : Bytes) :
    (s.kvStore.range key rangeEnd 0 false false).filter (fun kv => kv.key = k) =
      (s.inRange key rangeEnd k).toList := by
  have hmatched : ((s.matched key rangeEnd).map fun e => e.2.kv).filter (fun kv => kv.key = k) =
      (s.inRange key rangeEnd k).toList := by
    have hkey : ∀ e ∈ s.kvStore.data.toList, e.2.kv.key = e.1 := fun e he =>
      (h.data e.1 e.2 (UnorderedMap.mem_toList.mp he)).key
    have hfilter : (s.kvStore.data.toList.filter fun e => e.2.kv.key = k) =
        s.kvStore.data.toList.filter fun e => e.1 = k :=
      List.filter_congr fun e he => by rw [hkey e he]
    rw [matched, List.filter_map, List.filter_comm]
    show List.map _ (List.filter _ (s.kvStore.data.toList.filter fun e => e.2.kv.key = k)) = _
    rw [hfilter, UnorderedMap.filter_key, Server.inRange]
    cases s.kvStore.data.find? k with
    | none => simp
    | some info => by_cases hr : keyInRange k key rangeEnd = true <;> simp [hr]
  have hperm := (s.kvStore.range_perm key rangeEnd).filter fun kv => kv.key = k
  rw [← matched, hmatched] at hperm
  cases hv : s.inRange key rangeEnd k with
  | none => rw [hv] at hperm; exact hperm.eq_nil
  | some kv => rw [hv] at hperm; exact hperm.eq_singleton

/-- The events a registration delivers to its own watcher: the entries of its range, when it
asks for history. -/
theorem newEvents_registered (s : Server) {sid : StreamId} (hwr : Writable s.streams sid)
    (req : WatchCreateRequest) :
    newEvents s (.register req (some sid)) sid s.watchManager.nextWatchId =
      if req.startRevision > 0 then
        (s.kvStore.range req.key req.rangeEnd 0 false false).map fun kv => { type := .PUT, kv := kv }
      else [] := by
  have hok : s.takesCreated req (some sid) = true := hwr 0
  rw [newEvents, WatchAct.sends, List.flatMap_cons]
  simp only [hok, true_and]
  by_cases hrev : req.startRevision > 0
  · simp only [hrev, if_true, List.flatMap_map]
    simp [deliveredBy, makeWatcher, createdResponse, historicalResponse, List.map_eq_flatMap]
  · simp [hrev, deliveredBy, makeWatcher, createdResponse]

/-- What a watcher's events are replayed over: what its range holds when it is registered, or
nothing when it asks for history. -/
def WatchCreateRequest.base (req : WatchCreateRequest) (s : Server) : Bytes → Option KeyValue :=
  if req.startRevision > 0 then fun _ => none else s.inRange req.key req.rangeEnd

/-- A watcher follows from its registration. -/
theorem follows_register {s : Server} (h : Watched s) {sid : StreamId}
    (hwr : Writable s.streams sid) (req : WatchCreateRequest) :
    Follows (s.watchManager.makeWatcher req (some sid)) sid (req.base s)
      ((WatchAct.register req (some sid)).exec s) where
  watched := h.exec _
  writable := by
    rw [exec_streams h]
    exact sendAll_writable hwr _
  given := by
    rw [WatchAct.exec, (registerWatcher_registered s req (some sid)).nextWatchId]
    exact Int.lt_succ _
  same := by
    intro w' hw'
    rw [WatchAct.exec, (registerWatcher_registered s req (some sid)).find?] at hw'
    split_ifs at hw' with hnew
    · exact (Option.some.inj hw').symm
    · have hlt := h.registry.id_lt _ _ hw'
      exact absurd hlt (Int.lt_irrefl _)
  replay := by
    intro _
    rw [exec_delivered h hwr]
    show Change.replay (req.base s) (List.map Event.change
      (delivered s.streams sid s.watchManager.nextWatchId ++
        newEvents s (.register req (some sid)) sid s.watchManager.nextWatchId)) = _
    rw [delivered_of_idsBelow h.ids, List.nil_append, newEvents_registered s hwr,
      WatchCreateRequest.base]
    split_ifs with hrev
    · funext k
      rw [Change.replay_filter, filter_change, List.filter_map, List.map_map, List.map_map]
      have hrange := range_filter h.dated req.key req.rangeEnd k
      show Change.replay _ (((s.kvStore.range req.key req.rangeEnd 0 false false).filter
        fun kv => kv.key = k).map (changeOf .PUT)) k = s.inRange req.key req.rangeEnd k
      rw [hrange]
      cases hv : s.inRange req.key req.rangeEnd k with
      | none => rfl
      | some kv =>
        have hkey : kv.key = k := by
          have hmem : kv ∈ (s.kvStore.range req.key req.rangeEnd 0 false false).filter
              fun kv => kv.key = k := by
            rw [hrange, hv]
            exact List.mem_singleton_self kv
          simpa using (List.mem_filter.mp hmem).2
        simp [changeOf, Change.replay, Change.apply, hkey]
    · rfl

/-- **Watch replay.** After any run of puts, range deletions, registrations and cancellations
on a new server, a watcher that was registered in it, on a stream that takes every write, and
is registered still: replaying its events, over its range at registration or over nothing
if it asked for history, gives what the store holds of its range; and whatever the next
operation is, unless it ends the watcher, it delivers for each key of the range exactly the
change it makes to the key. -/
theorem watch_replay (env : Env) (pre post : List WatchAct) (req : WatchCreateRequest)
    (sid : StreamId) (hsid : ∀ n, env.outcomes sid n = true) :
    let s₀ := Run.final WatchAct.exec (Server.new env) pre
    let watchId := (s₀.registerWatcher req (some sid)).2.1
    let s := Run.final WatchAct.exec (s₀.registerWatcher req (some sid)).2.2 post
    (s.watchManager.watchers.find? watchId).isSome →
      Change.replay (req.base s₀) ((delivered s.streams sid watchId).map Event.change) =
        s.inRange req.key req.rangeEnd ∧
      ∀ a, ((WatchAct.exec s a).watchManager.watchers.find? watchId).isSome →
        ∃ new, delivered (a.exec s).streams sid watchId = delivered s.streams sid watchId ++ new ∧
          ∀ k, ((new.filter fun e => e.kv.key = k).map fun e => (e.type, e.kv)) =
            if keyInRange k req.key req.rangeEnd then a.changes s k else [] := by
  intro s₀ watchId s hlive
  have hpre : Watched s₀ ∧ Writable s₀.streams sid := by
    refine Run.invariant WatchAct.exec (I := fun s => Watched s ∧ Writable s.streams sid) ?_
      ⟨watched_new env, hsid⟩ pre
    intro s a hs
    refine ⟨hs.1.exec a, ?_⟩
    rw [exec_streams hs.1]
    exact sendAll_writable hs.2 _
  have hid : watchId = s₀.watchManager.nextWatchId := by
    simp only [watchId, Server.registerWatcher, WatchManager.registerWatcher]
    split_ifs <;> rfl
  have hfollows : Follows (s₀.watchManager.makeWatcher req (some sid)) sid (req.base s₀) s :=
    Run.invariant WatchAct.exec (fun s a hs => hs.exec rfl a)
      (follows_register hpre.1 hpre.2 req) post
  rw [hid] at hlive ⊢
  refine ⟨hfollows.replay hlive, ?_⟩
  intro a _
  refine ⟨newEvents s a sid s₀.watchManager.nextWatchId,
    exec_delivered hfollows.watched hfollows.writable a _, ?_⟩
  intro k
  obtain ⟨w, hw⟩ := Option.isSome_iff_exists.mp hlive
  obtain rfl := hfollows.same w hw
  exact exec_delivers hfollows.watched hw rfl a k

/-- A watcher that asks for history, a key there before it, one put and one deleted after. -/
theorem watch_replay_history :
    let req : WatchCreateRequest := { key := [107], rangeEnd := [0], startRevision := 1 }
    let s₀ := Run.final WatchAct.exec (Server.new .plain) [.put [108] [118] 0 none]
    let s := Run.final WatchAct.exec (s₀.registerWatcher req (some 0)).2.2
      [.put [109] [119] 0 none, .deleteRange { key := [108] }]
    Change.replay (fun _ => none) ((delivered s.streams 0 1).map Event.change) =
        s.inRange [107] [0] ∧
      ∀ a, ((WatchAct.exec s a).watchManager.watchers.find? 1).isSome →
        ∃ new, delivered (a.exec s).streams 0 1 = delivered s.streams 0 1 ++ new ∧
          ∀ k, ((new.filter fun e => e.kv.key = k).map fun e => (e.type, e.kv)) =
            if keyInRange k [107] [0] then a.changes s k else [] :=
  watch_replay .plain [.put [108] [118] 0 none]
    [.put [109] [119] 0 none, .deleteRange { key := [108] }]
    { key := [107], rangeEnd := [0], startRevision := 1 } 0 (fun _ => rfl) (by decide)

end EtcdLite
