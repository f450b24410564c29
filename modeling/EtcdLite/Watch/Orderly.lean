import EtcdLite.Watch.System

/-!
# Who has which watch id

A watch id is given out once. It is held by the handler that registers a watcher at it, until
the watcher is in the registry, and then it is the watcher's. So no two handlers hold the same
id, and none holds an id that is in the registry (`Orderly`); every step keeps this so
(`Orderly.step`), whatever becomes of the writes.
-/

namespace EtcdLite

open Server WatchManager

/-! ### Servers -/

theorem writeAll_idsBelow {streams : Streams} {n : Int} (h : IdsBelow streams n)
    {ws : List (StreamId × WatchResponse)} (hws : ∀ e ∈ ws, e.2.watchId < n) :
    IdsBelow (writeAll streams ws) n := by
  induction ws generalizing streams with
  | nil => exact h
  | cons e ws ih =>
    rw [writeAll_cons]
    refine ih ?_ fun e' he' => hws e' (List.mem_cons_of_mem _ he')
    intro sid r hr
    by_cases hsid : sid = e.1
    · subst hsid
      simp only [writeAll, List.foldl_cons, List.foldl_nil, Function.update_self, Stream.write] at hr
      split_ifs at hr
      · rcases List.mem_append.mp hr with hold | hnew
        · exact h e.1 r hold
        · rw [List.mem_singleton.mp hnew]
          exact hws e List.mem_cons_self
      · exact h e.1 r hr
    · simp only [writeAll, List.foldl_cons, List.foldl_nil, Function.update_of_ne hsid] at hr
      exact h sid r hr

/-- Another registry and other streams, over the same store. -/
theorem Watched.of_kvStore {s t : Server} (h : Watched s) (hstore : t.kvStore = s.kvStore)
    (hregistry : t.watchManager.InOrder) (hids : IdsBelow t.streams t.watchManager.nextWatchId) :
    Watched t where
  dated := by
    refine ⟨hstore ▸ h.dated.one_le, ?_⟩
    rw [Server.data, hstore]
    exact h.dated.data
  putCallback := hstore ▸ h.putCallback
  deleteCallback := hstore ▸ h.deleteCallback
  registry := hregistry
  ids := hids

/-- Writing responses that carry ids already given out. -/
theorem Watched.writing {s : Server} (h : Watched s) {ws : List (StreamId × WatchResponse)}
    (hws : ∀ e ∈ ws, e.2.watchId < s.watchManager.nextWatchId) :
    Watched (WatchSystem.writing s ws) :=
  h.of_kvStore rfl h.registry (writeAll_idsBelow h.ids hws)

/-- Every response that a notification sends carries the id of a registered watcher. -/
theorem sends_registered {s : Server} (h : s.watchManager.InOrder) (op : KvOp) :
    ∀ e ∈ toWrites (op.sends s), ∃ w, s.watchManager.watchers.find? e.2.watchId = some w := by
  have hnotices : ∀ (key : Bytes) (response : Watcher → WatchResponse),
      (∀ w, (response w).watchId = w.watchId) →
      ∀ e ∈ s.watchManager.notices key response,
        ∃ w, s.watchManager.watchers.find? e.2.watchId = some w := by
    intro key response hresponse e he
    obtain ⟨⟨i, w⟩, hmem, rfl⟩ := List.mem_map.mp he
    have hfind := UnorderedMap.mem_toList.mp (List.mem_filter.mp hmem).1
    rw [hresponse, h.id_eq i w hfind]
    exact ⟨w, hfind⟩
  intro e he
  obtain ⟨w, hmem, -⟩ := mem_toWrites he
  cases op with
  | put key value lease prevKv =>
    rw [KvOp.sends, WatchAct.sends] at hmem
    exact hnotices _ _ (fun _ => rfl) _ hmem
  | delete key rangeEnd prevKvs =>
    rw [KvOp.sends] at hmem
    split_ifs at hmem
    · obtain ⟨x, -, hx⟩ := List.mem_flatMap.mp hmem
      exact hnotices _ _ (fun _ => rfl) _ hx
    · cases hmem
  | txn compares success failure => cases hmem

theorem Watched.atom {s : Server} (h : Watched s) (a : Atom) : Watched (a.exec s) := by
  obtain ⟨hwm, hput, hdel⟩ := atom_rest s a
  refine ⟨?_, hput.trans h.putCallback, hdel.trans h.deleteCallback, hwm ▸ h.registry, ?_⟩
  · rcases atom_cases s a with ⟨op, rfl⟩ | ⟨-, hstore, -⟩
    · exact h.dated.exec op
    · refine ⟨hstore ▸ h.dated.one_le, ?_⟩
      rw [Server.data, hstore]
      exact h.dated.data
  · rw [hwm]
    rcases atom_cases s a with ⟨op, rfl⟩ | ⟨-, -, hstreams⟩
    · rw [Atom.exec, exec_streams_eq h.putCallback h.deleteCallback]
      refine writeAll_idsBelow h.ids fun e he => ?_
      obtain ⟨w, hw⟩ := sends_registered h.registry op e he
      exact h.registry.id_lt _ w hw
    · rw [hstreams]
      exact h.ids

namespace WatchSystem

/-! ### The invariant -/

/-- Every id is in one place. -/
structure Orderly (y : WatchSystem) : Prop where
  watched : Watched y.server
  /-- Every registered watcher has a stream. -/
  streamed : ∀ i w, y.server.watchManager.watchers.find? i = some w → ∃ sid, w.stream = some sid
  /-- An id that a handler holds has been given out, and is not in the registry. -/
  given : ∀ sid i, (y.handlers sid).watchId? = some i →
    i < y.server.watchManager.nextWatchId ∧ y.server.watchManager.watchers.find? i = none
  /-- No other handler holds it. -/
  distinct : ∀ sid sid' i, (y.handlers sid).watchId? = some i →
    (y.handlers sid').watchId? = some i → sid = sid'
  /-- A handler registers watchers on its own stream. -/
  own : ∀ sid w, (y.handlers sid).watcher? = some w → w.stream = some sid ∧ w.active = true

theorem orderly_start (env : Env) : Orderly (start env) where
  watched := watched_new env
  streamed := by
    intro i w hw
    cases hw
  given := by
    intro sid i hi
    cases hi
  distinct := by
    intro sid sid' i hi
    cases hi
  own := by
    intro sid w hw
    cases hw

theorem watchId_of_watcher {h : Handler} {w : Watcher} (hw : h.watcher? = some w) :
    h.watchId? = some w.watchId := by
  cases h <;> simp_all [Handler.watcher?, Handler.watchId?]

section Step

variable {y : WatchSystem} {s : Server} {sid : StreamId} {h' : Handler}

/-- What a handler holds, when one handler has moved on. -/
theorem moveTo_watchId {sid' : StreamId} {i : Int}
    (hi : ((y.moveTo s sid h').handlers sid').watchId? = some i) :
    (sid' = sid ∧ h'.watchId? = some i) ∨ (sid' ≠ sid ∧ (y.handlers sid').watchId? = some i) := by
  by_cases hne : sid' = sid
  · subst hne
    rw [moveTo_self] at hi
    exact .inl ⟨rfl, hi⟩
  · rw [moveTo_of_ne y s hne] at hi
    exact .inr ⟨hne, hi⟩

/-- A handler moves on with the id it held, or without one, and the registry is left alone. -/
theorem Orderly.moveTo (h : Orderly y) (hs : Watched s)
    (hwm : s.watchManager = y.server.watchManager)
    (hid : ∀ i, h'.watchId? = some i → (y.handlers sid).watchId? = some i)
    (hown : ∀ w, h'.watcher? = some w → (y.handlers sid).watcher? = some w) :
    Orderly (y.moveTo s sid h') where
  watched := hs
  streamed := by
    rw [moveTo_server, hwm]
    exact h.streamed
  given := by
    intro sid' i hi
    rw [moveTo_server, hwm]
    rcases moveTo_watchId hi with ⟨rfl, hheld⟩ | ⟨-, hheld⟩
    · exact h.given sid' i (hid i hheld)
    · exact h.given sid' i hheld
  distinct := by
    intro sid₁ sid₂ i h₁ h₂
    refine h.distinct sid₁ sid₂ i ?_ ?_
    · rcases moveTo_watchId h₁ with ⟨rfl, hi⟩ | ⟨-, hi⟩
      · exact hid i hi
      · exact hi
    · rcases moveTo_watchId h₂ with ⟨rfl, hi⟩ | ⟨-, hi⟩
      · exact hid i hi
      · exact hi
  own := by
    intro sid' w hw
    by_cases hne : sid' = sid
    · subst hne
      rw [moveTo_self] at hw
      exact h.own sid' w (hown w hw)
    · rw [moveTo_of_ne y s hne] at hw
      exact h.own sid' w hw

/-- The writes of a handler to its own watcher. -/
theorem Orderly.watched_own (h : Orderly y) {w : Watcher} {r : WatchResponse}
    (hw : (y.handlers sid).watcher? = some w) (hr : r.watchId = w.watchId) :
    Watched (writing y.server (toWrites [(w, r)])) := by
  refine h.watched.writing fun e he => ?_
  have hstream := (h.own sid w hw).1
  have hlt := (h.given sid w.watchId (watchId_of_watcher hw)).1
  obtain rfl : e = (sid, r) := by simpa [toWrites, hstream] using he
  exact hr.symm ▸ hlt

/-- An id that has not been given out is not in the registry. -/
theorem Orderly.next_free (h : Orderly y) :
    y.server.watchManager.watchers.find? y.server.watchManager.nextWatchId = none := by
  cases hw : y.server.watchManager.watchers.find? y.server.watchManager.nextWatchId with
  | none => rfl
  | some w => exact absurd (h.watched.registry.id_lt _ w hw) (Int.lt_irrefl _)

/-- A handler takes the next id. -/
theorem Orderly.numbered (h : Orderly y) (req : WatchCreateRequest) :
    Orderly (y.moveTo (takeId y.server) sid
      (.numbered (y.server.watchManager.makeWatcher req (some sid)))) := by
  have hlt : y.server.watchManager.nextWatchId < y.server.watchManager.nextWatchId + 1 :=
    Int.lt_succ _
  refine ⟨h.watched.of_kvStore rfl (h.watched.registry.of_found hlt.le fun i w hw => .inl hw)
    fun sid' r hr => (h.watched.ids sid' r hr).trans hlt, h.streamed, ?_, ?_, ?_⟩
  · intro sid' i hi
    rcases moveTo_watchId hi with ⟨-, hheld⟩ | ⟨-, hheld⟩
    · obtain rfl : y.server.watchManager.nextWatchId = i := Option.some.inj hheld
      exact ⟨hlt, h.next_free⟩
    · exact ⟨(h.given sid' i hheld).1.trans hlt, (h.given sid' i hheld).2⟩
  · -- The id is new, so no other handler holds it.
    have hfresh : ∀ sid' i, (y.handlers sid').watchId? = some i →
        y.server.watchManager.nextWatchId ≠ i := fun sid' i hi => (h.given sid' i hi).1.ne'
    intro sid₁ sid₂ i h₁ h₂
    rcases moveTo_watchId h₁ with ⟨hsid₁, hi₁⟩ | ⟨-, hi₁⟩ <;>
      rcases moveTo_watchId h₂ with ⟨hsid₂, hi₂⟩ | ⟨-, hi₂⟩
    · rw [hsid₁, hsid₂]
    · exact absurd (Option.some.inj hi₁) (hfresh sid₂ i hi₂)
    · exact absurd (Option.some.inj hi₂) (hfresh sid₁ i hi₁)
    · exact h.distinct sid₁ sid₂ i hi₁ hi₂
  · intro sid' w hw
    by_cases hne : sid' = sid
    · subst hne
      rw [moveTo_self] at hw
      rw [← Option.some.inj hw]
      exact ⟨rfl, rfl⟩
    · rw [moveTo_of_ne y _ hne] at hw
      exact h.own sid' w hw

/-- A handler cancels a watcher. -/
theorem Orderly.canceled (h : Orderly y) (hh : y.handlers sid = .reading) {watchId : Int}
    {w : Watcher} (hw : y.server.watchManager.watchers.find? watchId = some w) :
    Orderly (y.moveTo
      (eraseWatcher (writing y.server (toWrites [(w, canceledResponse y.server watchId)])) watchId)
      sid .reading) := by
  obtain ⟨sidw, hsidw⟩ := h.streamed watchId w hw
  have hfound : ∀ i w', (y.server.watchManager.watchers.erase watchId).find? i = some w' →
      y.server.watchManager.watchers.find? i = some w' := by
    intro i w' hw'
    rw [UnorderedMap.find?_erase] at hw'
    split_ifs at hw'
    exact hw'
  have hwatched : Watched (writing y.server (toWrites [(w, canceledResponse y.server watchId)])) := by
    refine h.watched.writing fun e he => ?_
    obtain rfl : e = (sidw, canceledResponse y.server watchId) := by
      simpa [toWrites, hsidw] using he
    exact h.watched.registry.id_lt watchId w hw
  refine ⟨hwatched.of_kvStore rfl
    (h.watched.registry.of_found le_rfl fun i w' hw' => .inl (hfound i w' hw')) hwatched.ids,
    fun i w' hw' => h.streamed i w' (hfound i w' hw'), ?_, ?_, ?_⟩
  · intro sid' i hi
    rw [moveTo_same hh] at hi
    obtain ⟨hlt, hnone⟩ := h.given sid' i hi
    refine ⟨hlt, ?_⟩
    show (y.server.watchManager.watchers.erase watchId).find? i = none
    rw [UnorderedMap.find?_erase, hnone, ite_self]
  · rw [moveTo_same hh]
    exact h.distinct
  · rw [moveTo_same hh]
    exact h.own

/-- A handler inserts its watcher. -/
theorem Orderly.inserted (h : Orderly y) {w : Watcher} (hh : y.handlers sid = .sending w []) :
    Orderly (y.moveTo (insertWatcher y.server w) sid .reading) := by
  have hw : (y.handlers sid).watcher? = some w := by rw [hh]; rfl
  obtain ⟨hstream, hactive⟩ := h.own sid w hw
  obtain ⟨hlt, hnone⟩ := h.given sid w.watchId (watchId_of_watcher hw)
  have hfound : ∀ i w', (y.server.watchManager.watchers.insert w.watchId w).find? i = some w' →
      y.server.watchManager.watchers.find? i = some w' ∨ (i = w.watchId ∧ w' = w) := by
    intro i w' hw'
    rw [UnorderedMap.find?_insert] at hw'
    split_ifs at hw' with hi
    · exact .inr ⟨hi, (Option.some.inj hw').symm⟩
    · exact .inl hw'
  have hinserted : (insertWatcher y.server w).watchManager.InOrder := by
    refine h.watched.registry.of_found le_rfl fun i w' hw' => ?_
    rcases hfound i w' hw' with hw' | ⟨rfl, rfl⟩
    · exact .inl hw'
    · exact .inr ⟨rfl, hlt, hactive⟩
  refine ⟨h.watched.of_kvStore rfl hinserted h.watched.ids, ?_, ?_, ?_, ?_⟩
  · intro i w' hw'
    rcases hfound i w' hw' with hw' | ⟨rfl, rfl⟩
    · exact h.streamed i w' hw'
    · exact ⟨sid, hstream⟩
  · intro sid' i hi
    rcases moveTo_watchId hi with ⟨-, hi⟩ | ⟨hne, hi⟩
    · cases hi
    · obtain ⟨hlt', hnone'⟩ := h.given sid' i hi
      refine ⟨hlt', ?_⟩
      show (y.server.watchManager.watchers.insert w.watchId w).find? i = none
      rw [UnorderedMap.find?_insert, if_neg, hnone']
      rintro rfl
      exact hne (h.distinct sid' sid _ hi (watchId_of_watcher hw))
  · intro sid₁ sid₂ i h₁ h₂
    rcases moveTo_watchId h₁ with ⟨-, h₁⟩ | ⟨-, h₁⟩
    · cases h₁
    rcases moveTo_watchId h₂ with ⟨-, h₂⟩ | ⟨-, h₂⟩
    · cases h₂
    exact h.distinct sid₁ sid₂ i h₁ h₂
  · intro sid' w' hw'
    by_cases hne : sid' = sid
    · subst hne
      rw [moveTo_self] at hw'
      cases hw'
    · rw [moveTo_of_ne y _ hne] at hw'
      exact h.own sid' w' hw'

end Step

/-- **Every step of a handler keeps the ids in order.** -/
theorem Orderly.moves {y z : WatchSystem} {sid : StreamId} {a : Action} (h : Orderly y)
    (hm : Moves y sid a z) : Orderly z := by
  cases hm with
  | connected hh => exact h.moveTo h.watched rfl (by simp [Handler.watchId?]) (by simp [Handler.watcher?])
  | disconnected hh =>
    exact h.moveTo h.watched rfl (by simp [Handler.watchId?]) (by simp [Handler.watcher?])
  | stamped hh =>
    exact h.moveTo h.watched rfl (by simp [Handler.watchId?, hh]) (by simp [Handler.watcher?, hh])
  | collected hh =>
    exact h.moveTo h.watched rfl (by simp [Handler.watchId?, hh]) (by simp [Handler.watcher?, hh])
  | filled hh =>
    exact h.moveTo h.watched rfl (by simp [Handler.watchId?, hh]) (by simp [Handler.watcher?])
  | created hh hok =>
    exact h.moveTo (h.watched_own (by rw [hh]; rfl) rfl) rfl (by simp [Handler.watchId?, hh])
      (by simp [Handler.watcher?, hh])
  | failed hh hok =>
    exact h.moveTo (h.watched_own (by rw [hh]; rfl) rfl) rfl (by simp [Handler.watchId?, hh])
      (by simp [Handler.watcher?])
  | sent hh =>
    exact h.moveTo (h.watched_own (by rw [hh]; rfl) rfl) rfl (by simp [Handler.watchId?, hh])
      (by simp [Handler.watcher?, hh])
  | @refused watchId header hh =>
    refine h.moveTo (h.watched.writing fun e he => ?_) rfl (by simp [Handler.watchId?])
      (by simp [Handler.watcher?])
    rw [List.mem_singleton.mp he]
    exact (h.given sid watchId (by rw [hh]; rfl)).1
  | @numbered req hh => exact h.numbered req
  | canceled hh hw => exact h.canceled hh hw
  | inserted hh => exact h.inserted hh

theorem Orderly.atom {y : WatchSystem} (h : Orderly y) (a : Atom) :
    Orderly { y with server := a.exec y.server } := by
  have hwm := (atom_rest y.server a).1
  refine ⟨h.watched.atom a, ?_, ?_, h.distinct, h.own⟩
  · show ∀ i w, (a.exec y.server).watchManager.watchers.find? i = some w → _
    rw [hwm]
    exact h.streamed
  · show ∀ sid i, _ → i < (a.exec y.server).watchManager.nextWatchId ∧
      (a.exec y.server).watchManager.watchers.find? i = none
    rw [hwm]
    exact h.given

/-- **Every step keeps the ids in order.** -/
theorem Orderly.step {y : WatchSystem} (h : Orderly y) (a : Action) : Orderly (y.step a) := by
  rcases step_cases y a with ⟨atom, -, hz⟩ | ⟨sid, hm⟩ | ⟨-, -, hz⟩
  · rw [hz]
    exact h.atom atom
  · exact h.moves hm
  · rw [hz]
    exact h

theorem orderly_run (env : Env) (acts : List Action) : Orderly ((start env).run acts) :=
  Run.invariant step (fun _ a h => h.step a) (orderly_start env) acts

end WatchSystem

end EtcdLite
