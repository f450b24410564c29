import EtcdLite.Watch.Life

/-!
# The shape of a watch

The responses that carry one watch id are written by five paths, on different threads: the
registration, its historical events, the notifications of puts and of deletions, the
cancellation, and the handler when a registration fails. Only some of them hold the lock of
the registry. All the same a client sees them in one shape (`watch_protocol`): they are all on
one stream, the created response first, then events, then the canceled response, and nothing
after it. The only thing asked of the streams is that they do not recover: a response that
says a registration has failed is written after a write that failed.
-/

namespace EtcdLite

open Server WatchManager

/-! ### The shape -/

/-- It says that a watcher is created. -/
def WatchResponse.IsCreated (r : WatchResponse) : Prop :=
  r.created = true ∧ r.canceled = false ∧ r.events = []

/-- It carries events. -/
def WatchResponse.IsEvents (r : WatchResponse) : Prop :=
  r.created = false ∧ r.canceled = false ∧ r.events ≠ []

/-- It says that a watcher is canceled. -/
def WatchResponse.IsCanceled (r : WatchResponse) : Prop :=
  r.created = false ∧ r.canceled = true ∧ r.events = []

/-- A prefix of: a created response, any number of events, a canceled response. -/
def WatchShape (rs : List WatchResponse) : Prop :=
  ∃ c es x, WatchResponse.IsCreated c ∧ (∀ e ∈ es, WatchResponse.IsEvents e) ∧
    WatchResponse.IsCanceled x ∧ rs <+: c :: (es ++ [x])

/-- A created response, and any number of events. -/
def Begun (rs : List WatchResponse) : Prop :=
  ∃ c es, rs = c :: es ∧ WatchResponse.IsCreated c ∧ ∀ e ∈ es, WatchResponse.IsEvents e

theorem Begun.append {rs es : List WatchResponse} (h : Begun rs)
    (hes : ∀ e ∈ es, WatchResponse.IsEvents e) : Begun (rs ++ es) := by
  obtain ⟨c, es', rfl, hc, hes'⟩ := h
  refine ⟨c, es' ++ es, rfl, hc, fun e he => ?_⟩
  rcases List.mem_append.mp he with he | he
  · exact hes' e he
  · exact hes e he

/-- Any canceled response will do to complete a shape. -/
theorem isCanceled_exists : ∃ x, WatchResponse.IsCanceled x := ⟨{ canceled := true }, rfl, rfl, rfl⟩

theorem watchShape_nil : WatchShape [] := by
  obtain ⟨x, hx⟩ := isCanceled_exists
  exact ⟨{ created := true }, [], x, ⟨rfl, rfl, rfl⟩, by simp, hx, List.nil_prefix⟩

theorem Begun.shape {rs : List WatchResponse} (h : Begun rs) : WatchShape rs := by
  obtain ⟨c, es, rfl, hc, hes⟩ := h
  obtain ⟨x, hx⟩ := isCanceled_exists
  exact ⟨c, es, x, hc, hes, hx, [x], rfl⟩

theorem Begun.cancel {rs : List WatchResponse} (h : Begun rs) {x : WatchResponse}
    (hx : WatchResponse.IsCanceled x) : WatchShape (rs ++ [x]) := by
  obtain ⟨c, es, rfl, hc, hes⟩ := h
  exact ⟨c, es, x, hc, hes, hx, List.prefix_rfl⟩

/-- The notices of an operation are events. -/
theorem noticesTo_isEvents {s : Server} {w : Watcher} {op : KvOp} :
    ∀ r ∈ op.noticesTo s w, r.IsEvents := by
  intro r hr
  cases op with
  | put key value lease prevKv =>
    rw [KvOp.noticesTo] at hr
    split_ifs at hr
    · rw [List.mem_singleton.mp hr]
      exact ⟨rfl, rfl, by simp [putResponse]⟩
    · cases hr
  | delete key rangeEnd prevKvs =>
    rw [KvOp.noticesTo] at hr
    split_ifs at hr
    · obtain ⟨e, -, rfl⟩ := List.mem_map.mp hr
      exact ⟨rfl, rfl, by simp [deleteResponse]⟩
    · cases hr
  | txn compares success failure => cases hr

/-! ### The trace of a life -/

/-- No stream but this one carries the id. -/
def Only (streams : Streams) (sid : StreamId) (i : Int) : Prop :=
  ∀ sid', sid' ≠ sid → carried streams sid' i = []

/-- What the streams carry for an id, at each point of its life. -/
def Proper (streams : Streams) (i : Int) : Life → Prop
  | .unused => ∀ sid, carried streams sid i = []
  | .held sid (.created _) | .held sid (.sending _ _) =>
    Only streams sid i ∧ Begun (carried streams sid i)
  | .held sid (.failed _) | .held sid (.refusing _ _) =>
    (∀ sid', carried streams sid' i = []) ∧ Dead streams sid
  | .held _ _ => ∀ sid', carried streams sid' i = []
  | .live w => ∃ sid, w.stream = some sid ∧ Only streams sid i ∧ Begun (carried streams sid i)
  | .ended => ∃ sid, Only streams sid i ∧ WatchShape (carried streams sid i)

section Writes

variable {streams : Streams} {all : List (StreamId × WatchResponse)} {i : Int}

theorem Only.writeAll {sid : StreamId} (h : Only streams sid i) {rs : List WatchResponse}
    (hrs : addressed all i = rs.map fun r => (sid, r)) : Only (writeAll streams all) sid i :=
  fun sid' hne => (carried_of_other hne hrs).trans (h sid' hne)

/-- Events that are written to a watcher that has begun. -/
theorem begun_writeAll {sid : StreamId} (h : Begun (carried streams sid i))
    {rs : List WatchResponse} (hrs : addressed all i = rs.map fun r => (sid, r))
    (hevents : ∀ r ∈ rs, r.IsEvents) : Begun (carried (writeAll streams all) sid i) := by
  obtain ⟨l, hl, hcarried⟩ := carried_writeAll_sublist streams hrs
  rw [hcarried]
  exact h.append fun e he => hevents e (hl.subset he)

end Writes

/-- The trace of a life does not change with writes that do not carry the id. -/
theorem Proper.congr {streams streams' : Streams} {i : Int} {l : Life}
    (hsame : ∀ sid, carried streams' sid i = carried streams sid i)
    (hdead : ∀ sid, Dead streams sid → Dead streams' sid) (h : Proper streams i l) :
    Proper streams' i l := by
  cases l with
  | unused => exact fun sid => (hsame sid).trans (h sid)
  | live w => simpa only [Proper, Only, hsame] using h
  | ended => simpa only [Proper, Only, hsame] using h
  | held sid hd =>
    cases hd with
    | failed watchId => exact ⟨fun sid' => (hsame sid').trans (h.1 sid'), hdead sid h.2⟩
    | refusing watchId header => exact ⟨fun sid' => (hsame sid').trans (h.1 sid'), hdead sid h.2⟩
    | created w => simpa only [Proper, Only, hsame] using h
    | sending w kvs => simpa only [Proper, Only, hsame] using h
    | closed => exact fun sid' => (hsame sid').trans (h sid')
    | reading => exact fun sid' => (hsame sid').trans (h sid')
    | numbered w => exact fun sid' => (hsame sid').trans (h sid')
    | stamped w revision => exact fun sid' => (hsame sid').trans (h sid')
    | returned => exact fun sid' => (hsame sid').trans (h sid')

/-- Whatever has become of an id, one stream carries it, and in the shape of a watch. -/
theorem Proper.shaped {streams : Streams} {i : Int} {l : Life} (h : Proper streams i l) :
    ∃ sid, Only streams sid i ∧ WatchShape (carried streams sid i) := by
  have hnone : (∀ sid, carried streams sid i = []) →
      ∃ sid, Only streams sid i ∧ WatchShape (carried streams sid i) := by
    intro hnone
    refine ⟨0, fun sid _ => hnone sid, ?_⟩
    rw [hnone]
    exact watchShape_nil
  cases l with
  | unused => exact hnone h
  | live w =>
    obtain ⟨sid, -, honly, hbegun⟩ := h
    exact ⟨sid, honly, hbegun.shape⟩
  | ended => exact h
  | held sid hd =>
    cases hd with
    | created w => exact ⟨sid, h.1, h.2.shape⟩
    | sending w kvs => exact ⟨sid, h.1, h.2.shape⟩
    | failed watchId => exact hnone h.1
    | refusing watchId header => exact hnone h.1
    | closed => exact hnone h
    | reading => exact hnone h
    | numbered w => exact hnone h
    | stamped w revision => exact hnone h
    | returned => exact hnone h

namespace WatchSystem

/-- **Each step keeps the trace of a life proper.** -/
theorem proper_evolves {y : WatchSystem} {a : Action} {i : Int} {l l' : Life}
    {all : List (StreamId × WatchResponse)} (hsticky : ∀ sid, Sticky y.server.streams sid)
    (hall : (y.step a).server.streams = writeAll y.server.streams all)
    (he : Evolves y a i l (addressed all i) l') (h : Proper y.server.streams i l) :
    Proper (y.step a).server.streams i l' := by
  have hdead : ∀ sid, Dead y.server.streams sid → Dead (y.step a).server.streams sid := by
    intro sid hsid
    rw [hall]
    exact hsid.writeAll all
  generalize hws : addressed all i = ws at he
  -- A step that writes nothing for the id leaves what the streams carry for it.
  have hsame : ws = [] → ∀ sid,
      carried (y.step a).server.streams sid i = carried y.server.streams sid i := by
    intro hnil
    rw [hall]
    exact carried_of_addressed_nil (hws.trans hnil)
  cases he with
  | rest hl => exact h.congr (hsame rfl) hdead
  | @notified w sid op ha hsid =>
    obtain ⟨sid', hsid', honly, hbegun⟩ := h
    obtain rfl : sid = sid' := Option.some.inj (hsid.symm.trans hsid')
    rw [hall]
    exact ⟨sid, hsid, honly.writeAll hws, begun_writeAll hbegun hws noticesTo_isEvents⟩
  | @canceled w sid sid'' ha hsid =>
    obtain ⟨sid', hsid', honly, hbegun⟩ := h
    obtain rfl : sid = sid' := Option.some.inj (hsid.symm.trans hsid')
    have hrs : addressed all i = [canceledResponse y.server i].map fun r => (sid, r) := hws
    obtain ⟨l, hl, hcarried⟩ := carried_writeAll_sublist y.server.streams hrs
    rw [hall]
    refine ⟨sid, honly.writeAll hrs, ?_⟩
    rw [hcarried]
    rcases List.sublist_singleton.mp hl with rfl | rfl
    · rw [List.append_nil]
      exact hbegun.shape
    · exact hbegun.cancel ⟨rfl, rfl, rfl⟩
  | numbered ha => exact fun sid' => (hsame rfl sid').trans (h sid')
  | stamped ha => exact fun sid' => (hsame rfl sid').trans (h sid')
  | @created sid w revision ha hok hz =>
    have hnone : ∀ sid', carried y.server.streams sid' i = [] := h
    have hid : (createdAt w revision).watchId = i := by
      have hmem : (sid, createdAt w revision) ∈ addressed all i := by
        rw [hws]
        exact List.mem_singleton_self _
      exact of_decide_eq_true (List.mem_filter.mp hmem).2
    have hcarried : carried (y.step a).server.streams sid i = [createdAt w revision] := by
      rw [hz, carried_write, hnone, List.nil_append, if_pos ⟨rfl, hid, hok⟩]
    refine ⟨fun sid' hne => ?_, ?_⟩
    · rw [hz, carried_write, hnone, List.nil_append, if_neg]
      rintro ⟨hsid, -⟩
      exact hne hsid.symm
    · rw [hcarried]
      exact ⟨createdAt w revision, [], rfl, ⟨rfl, rfl, rfl⟩, by simp⟩
  | @failed sid w revision ha hfail hz =>
    have hnone : ∀ sid', carried y.server.streams sid' i = [] := h
    rw [hz]
    refine ⟨fun sid' => ?_, (hsticky sid).dead hfail _⟩
    rw [carried_write, hnone, List.nil_append, if_neg]
    rintro ⟨rfl, -, hok⟩
    rw [hfail] at hok
    cases hok
  | @collected sid w ha =>
    have hbegun : Proper (y.step a).server.streams i (.held sid (.created w)) :=
      h.congr (hsame rfl) hdead
    exact hbegun
  | @sent sid w kv kvs ha =>
    obtain ⟨honly, hbegun⟩ := h
    have hrs : addressed all i = [historicalResponse w kv].map fun r => (sid, r) := hws
    rw [hall]
    refine ⟨honly.writeAll hrs, begun_writeAll hbegun hrs fun r hr => ?_⟩
    rw [List.mem_singleton.mp hr]
    exact ⟨rfl, rfl, by simp [historicalResponse]⟩
  | @inserted sid w ha hsid =>
    have hbegun : Proper (y.step a).server.streams i (.held sid (.sending w [])) :=
      h.congr (hsame rfl) hdead
    exact ⟨sid, hsid, hbegun.1, hbegun.2⟩
  | @filled sid ha =>
    have hfailed : Proper (y.step a).server.streams i (.held sid (.failed i)) :=
      h.congr (hsame rfl) hdead
    exact hfailed
  | @refused sid header ha =>
    -- The stream has taken no created response, and takes no more.
    obtain ⟨hnone, hsid⟩ := h
    have hstill : ∀ sid', carried (y.step a).server.streams sid' i = [] := by
      intro sid'
      rw [hall]
      by_cases hne : sid' = sid
      · rw [hne, carried_writeAll_of_dead hsid, hnone]
      · have hrs : addressed all i = [WatchService.failedResponse i header].map fun r => (sid, r) :=
          hws
        rw [carried_of_other hne hrs, hnone]
    refine ⟨sid, fun sid' _ => hstill sid', ?_⟩
    rw [hstill]
    exact watchShape_nil

/-! ### Runs -/

/-- Streams that do not recover go on so. -/
theorem sticky_step {y : WatchSystem} (h : Orderly y) (hsticky : ∀ sid, Sticky y.server.streams sid)
    (a : Action) (sid : StreamId) : Sticky (y.step a).server.streams sid := by
  rw [step_streams h]
  exact (hsticky sid).writeAll _

/-- No stream has recovered, and the responses that carry an id are those of its life. -/
structure Proceeding (y : WatchSystem) : Prop where
  orderly : Orderly y
  sticky : ∀ sid, Sticky y.server.streams sid
  proper : ∀ i, ∃ l, y.HasLife i l ∧ Proper y.server.streams i l

theorem Proceeding.step {y : WatchSystem} (h : Proceeding y) (a : Action) :
    Proceeding (y.step a) where
  orderly := h.orderly.step a
  sticky := sticky_step h.orderly h.sticky a
  proper := by
    intro i
    obtain ⟨l, hl, hproper⟩ := h.proper i
    obtain ⟨l', hl', he⟩ := life_step h.orderly hl a
    exact ⟨l', hl', proper_evolves h.sticky (step_streams h.orderly a) he hproper⟩

theorem proceeding_run {env : Env}
    (hsticky : ∀ sid n, env.outcomes sid n = false → env.outcomes sid (n + 1) = false)
    (acts : List Action) : Proceeding ((start env).run acts) := by
  refine Run.invariant WatchSystem.step (fun _ a h => h.step a) ⟨orderly_start env, hsticky, ?_⟩ acts
  intro i
  obtain ⟨l, hl, rfl | rfl⟩ := exists_life_start env i
  · exact ⟨.unused, hl, fun sid => rfl⟩
  · exact ⟨.ended, hl, 0, fun sid _ => rfl, watchShape_nil⟩

/-- The watch ids that a step hands out. -/
def handedOut (y : WatchSystem) : Action → List Int
  | .request sid (.createRequest req) =>
    if y.handlers sid = .reading then [(y.server.watchManager.makeWatcher req (some sid)).watchId]
    else []
  | .request _ _ | .atom _ | .connect _ | .disconnect _ | .resume _ => []

/-- A step hands out the next watch id, or none. -/
theorem handedOut_cases (y : WatchSystem) (a : Action) :
    (y.handedOut a = [y.server.watchManager.nextWatchId] ∧
      (y.step a).server.watchManager.nextWatchId = y.server.watchManager.nextWatchId + 1) ∨
    (y.handedOut a = [] ∧
      (y.step a).server.watchManager.nextWatchId = y.server.watchManager.nextWatchId) := by
  rcases step_cases y a with ⟨atom, rfl, hz⟩ | ⟨sid, hm⟩ | ⟨hatom, -, hz⟩
  · right
    rw [hz, (atom_rest y.server atom).1]
    exact ⟨rfl, rfl⟩
  · generalize y.step a = z at hm
    cases hm with
    | numbered hh =>
      left
      rw [handedOut, if_pos hh]
      exact ⟨rfl, rfl⟩
    | _ => exact .inr ⟨rfl, rfl⟩
  · right
    refine ⟨?_, by rw [hz]⟩
    cases a with
    | request sid req =>
      cases req with
      | createRequest req =>
        -- A handler that reads it moves on.
        rw [handedOut, if_neg]
        intro hh
        have hnext := congrArg (fun y => y.server.watchManager.nextWatchId) hz
        rw [step, if_pos hh] at hnext
        exact (Int.lt_succ _).ne' hnext
      | _ => rfl
    | _ => rfl

/-- These ids, handed out so far, are different, and the next is none of them. -/
def Different (y : WatchSystem) (ids : List Int) : Prop :=
  (∀ i ∈ ids, i < y.server.watchManager.nextWatchId) ∧ ids.Nodup

theorem Different.step {y : WatchSystem} {ids : List Int} (h : Different y ids) (a : Action) :
    Different (y.step a) (ids ++ y.handedOut a) := by
  obtain ⟨hlt, hnodup⟩ := h
  rw [Different]
  rcases handedOut_cases y a with ⟨hout, hnext⟩ | ⟨hout, hnext⟩
  · rw [hout, hnext]
    refine ⟨fun i hi => ?_, ?_⟩
    · rcases List.mem_append.mp hi with hi | hi
      · exact (hlt i hi).trans (Int.lt_succ _)
      · rw [List.mem_singleton.mp hi]
        exact Int.lt_succ _
    · refine List.nodup_append.mpr ⟨hnodup, List.nodup_singleton _, fun i hi j hj => ?_⟩
      rw [List.mem_singleton.mp hj]
      exact (hlt i hi).ne
  · rw [hout, hnext, List.append_nil]
    exact ⟨hlt, hnodup⟩

/-- No watch id is handed out twice. -/
theorem handedOut_nodup (env : Env) (acts : List Action) :
    (Run.log WatchSystem.step handedOut (start env) acts).Nodup := by
  have hstart : Different (start env) [] := ⟨by simp, List.nodup_nil⟩
  exact (Run.invariant_log WatchSystem.step (I := Different) (fun _ a _ h => h.step a) hstart acts).2

/-- **The shape of a watch.** However the handlers of any number of streams are interleaved,
with each other and with the operations of the store, no watch id is handed out twice, and what
the streams carry for an id is on one stream, and is a prefix of a created response, any number
of events and a canceled response. -/
theorem watch_protocol {env : Env}
    (hsticky : ∀ sid n, env.outcomes sid n = false → env.outcomes sid (n + 1) = false)
    (acts : List Action) :
    (Run.log WatchSystem.step handedOut (start env) acts).Nodup ∧
      ∀ i, ∃ sid,
        (∀ sid', sid' ≠ sid → carried ((start env).run acts).server.streams sid' i = []) ∧
          WatchShape (carried ((start env).run acts).server.streams sid i) := by
  refine ⟨handedOut_nodup env acts, fun i => ?_⟩
  obtain ⟨l, -, hproper⟩ := (proceeding_run hsticky acts).proper i
  exact hproper.shaped

/-- Two streams, a put between the created response and the insertion of one of the watchers,
and a cancellation. -/
theorem watch_protocol_two :
    let acts : List Action :=
      [.connect 0, .connect 1, .request 0 (.createRequest { key := [107] }),
        .request 1 (.createRequest { key := [107], startRevision := 1 }), .resume 1, .resume 1,
        .atom (.kv (.put [107] [118] 0 none)), .resume 1, .resume 0, .resume 1, .resume 1,
        .atom (.kv (.put [107] [119] 0 none)), .request 1 (.cancelRequest 2)]
    (Run.log WatchSystem.step handedOut (start .plain) acts).Nodup ∧
      ∀ i, ∃ sid,
        (∀ sid', sid' ≠ sid → carried ((start .plain).run acts).server.streams sid' i = []) ∧
          WatchShape (carried ((start .plain).run acts).server.streams sid i) :=
  watch_protocol (show ∀ sid n, Env.plain.outcomes sid n = false →
    Env.plain.outcomes sid (n + 1) = false from fun _ _ h => Bool.noConfusion h) _

end WatchSystem

end EtcdLite
