import EtcdLite.Watch.Orderly

/-!
# The life of a watch id

What can become of one watch id, whatever else the server does (`Life`): it is unused; then a
handler holds it, while it registers a watcher; then its watcher is live, until it is
canceled; then it has ended. `Evolves` says how an id goes on in one step, and which responses
that carry it are written in the step. Every step of the whole system is a step of this kind
for each id (`life_step`), so what is to be shown of one watcher, among any number of
handlers and other threads, is to be shown along its life only.
-/

namespace EtcdLite

open Server WatchManager

/-- The responses an operation of the store sends to a registered watcher. -/
def KvOp.noticesTo (s : Server) (w : Watcher) : KvOp → List WatchResponse
  | .put key value lease _ =>
    if keyMatchesWatcher key w then
      [putResponse w (putInfo (s.data key) key value lease (s.kvStore.revision + 1)).kv
        ((s.data key).map KeyInfo.kv) (s.kvStore.revision + 1)]
    else []
  | .delete key rangeEnd prevKvs =>
    if prevKvs then
      ((s.matched key rangeEnd).filter fun e => keyMatchesWatcher e.2.kv.key w).map fun e =>
        deleteResponse w e.2.kv (s.kvStore.revision + 1)
    else []
  | .txn _ _ _ => []

/-- Of the writes of an operation, those that carry an id are its notices to the watcher that
has it. -/
theorem addressed_sends {s : Server} (h : s.watchManager.InOrder) (op : KvOp) (i : Int) :
    addressed (toWrites (op.sends s)) i =
      (s.watchManager.watchers.find? i).toList.flatMap fun w =>
        w.stream.toList.flatMap fun sid => (op.noticesTo s w).map fun r => (sid, r) := by
  cases op with
  | put key value lease prevKv =>
    rw [KvOp.sends, WatchAct.sends, addressed_notices h i key fun _ => rfl]
    refine List.flatMap_congr fun w _ => ?_
    rw [KvOp.noticesTo]
    cases w.stream <;> split_ifs <;> rfl
  | delete key rangeEnd prevKvs =>
    cases prevKvs with
    | false => simp [KvOp.sends, KvOp.noticesTo, toWrites, addressed]
    | true =>
      have hflat : addressed (toWrites ((KvOp.delete key rangeEnd true).sends s)) i =
          (s.matched key rangeEnd).flatMap fun e => addressed (toWrites
            (s.watchManager.notices e.2.kv.key fun w =>
              deleteResponse w e.2.kv (s.kvStore.revision + 1))) i := by
        rw [KvOp.sends, if_pos rfl, WatchAct.sends, toWrites, List.flatMap_assoc, addressed,
          List.filter_flatMap]
        rfl
      have hone : ∀ e : Bytes × KeyInfo, addressed (toWrites
          (s.watchManager.notices e.2.kv.key fun w =>
            deleteResponse w e.2.kv (s.kvStore.revision + 1))) i =
          (s.watchManager.watchers.find? i).toList.flatMap fun w =>
            if keyMatchesWatcher e.2.kv.key w then
              w.stream.toList.map fun sid => (sid, deleteResponse w e.2.kv (s.kvStore.revision + 1))
            else [] := fun e => addressed_notices h i e.2.kv.key fun _ => rfl
      simp only [hflat, hone]
      cases s.watchManager.watchers.find? i with
      | none => simp
      | some w =>
        simp only [Option.toList_some, List.flatMap_singleton, KvOp.noticesTo, if_true, List.map_map]
        cases w.stream with
        | none => simp
        | some sid =>
          simp only [Option.toList_some, List.map_singleton, List.flatMap_singleton]
          rw [← List.flatMap_singleton' (List.map _ _), List.flatMap_map, UnorderedMap.flatMap_filter]
          rfl
  | txn compares success failure => simp [KvOp.sends, KvOp.noticesTo, toWrites, addressed]

/-- What has become of a watch id. -/
inductive Life where
  /-- It has not been given out. -/
  | unused
  /-- The handler of a stream, which is in this state, is registering a watcher at it. -/
  | held (sid : StreamId) (h : Handler)
  /-- Its watcher is in the registry. -/
  | live (w : Watcher)
  /-- Its watcher has been canceled, or has not been created. -/
  | ended

namespace WatchSystem

/-- The life of an id. -/
def HasLife (y : WatchSystem) (i : Int) : Life → Prop
  | .unused => y.server.watchManager.nextWatchId ≤ i
  | .held sid h => y.handlers sid = h ∧ h.watchId? = some i
  | .live w => y.server.watchManager.watchers.find? i = some w
  | .ended => i < y.server.watchManager.nextWatchId ∧
      y.server.watchManager.watchers.find? i = none ∧ ∀ sid, (y.handlers sid).watchId? ≠ some i

theorem exists_life (y : WatchSystem) (i : Int) : ∃ l, y.HasLife i l := by
  by_cases hnext : y.server.watchManager.nextWatchId ≤ i
  · exact ⟨.unused, hnext⟩
  by_cases hheld : ∃ sid, (y.handlers sid).watchId? = some i
  · obtain ⟨sid, hsid⟩ := hheld
    exact ⟨.held sid (y.handlers sid), rfl, hsid⟩
  cases hw : y.server.watchManager.watchers.find? i with
  | some w => exact ⟨.live w, hw⟩
  | none => exact ⟨.ended, not_le.mp hnext, hw, fun sid hsid => hheld ⟨sid, hsid⟩⟩

/-- At the start, no handler holds the id, and it is not in the registry. -/
theorem exists_life_start (env : Env) (i : Int) :
    ∃ l, (start env).HasLife i l ∧ (l = .unused ∨ l = .ended) := by
  obtain ⟨l, hl⟩ := (start env).exists_life i
  refine ⟨l, hl, ?_⟩
  cases l with
  | unused => exact .inl rfl
  | held sid h => cases hl.1 ▸ hl.2
  | live w => cases hl
  | ended => exact .inr rfl

section Unique

variable {y : WatchSystem} {i : Int} {l : Life}

theorem unused_unique (h : Orderly y) (hi : y.server.watchManager.nextWatchId ≤ i)
    (hl : y.HasLife i l) : l = .unused := by
  cases l with
  | unused => rfl
  | held sid h' =>
    obtain ⟨rfl, hid⟩ := hl
    have hlt := (h.given sid i hid).1
    omega
  | live w =>
    have hlt := h.watched.registry.id_lt i w hl
    omega
  | ended =>
    have hlt := hl.1
    omega

theorem held_unique (h : Orderly y) {sid : StreamId} (hi : (y.handlers sid).watchId? = some i)
    (hl : y.HasLife i l) : l = .held sid (y.handlers sid) := by
  obtain ⟨hlt, hnone⟩ := h.given sid i hi
  cases l with
  | unused =>
    have hle : y.server.watchManager.nextWatchId ≤ i := hl
    omega
  | held sid' h' =>
    obtain ⟨rfl, hid⟩ := hl
    rw [h.distinct sid' sid i hid hi]
  | live w =>
    have hw : y.server.watchManager.watchers.find? i = some w := hl
    rw [hnone] at hw
    cases hw
  | ended => exact absurd hi (hl.2.2 sid)

theorem live_unique (h : Orderly y) {w : Watcher}
    (hw : y.server.watchManager.watchers.find? i = some w) (hl : y.HasLife i l) : l = .live w := by
  cases l with
  | unused =>
    have hle : y.server.watchManager.nextWatchId ≤ i := hl
    have hlt := h.watched.registry.id_lt i w hw
    omega
  | held sid h' =>
    obtain ⟨rfl, hid⟩ := hl
    have hnone := (h.given sid i hid).2
    rw [hw] at hnone
    cases hnone
  | live w' =>
    have hw' : y.server.watchManager.watchers.find? i = some w' := hl
    rw [Option.some.inj (hw.symm.trans hw')]
  | ended =>
    have hnone := hl.2.1
    rw [hw] at hnone
    cases hnone

/-- An id has one life. -/
theorem life_unique (h : Orderly y) {l' : Life} (hl : y.HasLife i l) (hl' : y.HasLife i l') :
    l = l' := by
  cases l with
  | unused => exact (unused_unique h hl hl').symm
  | held sid h' =>
    obtain ⟨rfl, hid⟩ := hl
    exact (held_unique h hid hl').symm
  | live w => exact (live_unique h hl hl').symm
  | ended =>
    cases l' with
    | unused => exact unused_unique h hl' hl
    | held sid h' =>
      obtain ⟨rfl, hid⟩ := hl'
      exact held_unique h hid hl
    | live w => exact live_unique h hl' hl
    | ended => rfl

end Unique

/-! ### One step -/

/-- How an id goes on in a step, and the responses that carry it that are written. -/
inductive Evolves (y : WatchSystem) (a : Action) (i : Int) :
    Life → List (StreamId × WatchResponse) → Life → Prop
  /-- The step is about something else. -/
  | rest {l : Life} (hl : ∀ w op, l = .live w → a ≠ .atom (.kv op)) : Evolves y a i l [] l
  /-- An operation of the store notifies the watcher. -/
  | notified {w : Watcher} {sid : StreamId} {op : KvOp} (ha : a = .atom (.kv op))
      (hsid : w.stream = some sid) :
      Evolves y a i (.live w) ((op.noticesTo y.server w).map fun r => (sid, r)) (.live w)
  | canceled {w : Watcher} {sid sid' : StreamId} (ha : a = .request sid' (.cancelRequest i))
      (hsid : w.stream = some sid) :
      Evolves y a i (.live w) [(sid, canceledResponse y.server i)] .ended
  | numbered {sid : StreamId} {req : WatchCreateRequest}
      (ha : a = .request sid (.createRequest req)) :
      Evolves y a i .unused []
        (.held sid (.numbered (y.server.watchManager.makeWatcher req (some sid))))
  | stamped {sid : StreamId} {w : Watcher} (ha : a = .resume sid) :
      Evolves y a i (.held sid (.numbered w)) [] (.held sid (.stamped w y.server.kvStore.revision))
  /-- The created response is written. -/
  | created {sid : StreamId} {w : Watcher} {revision : Int} (ha : a = .resume sid)
      (hok : (y.server.streams sid).outcomes 0 = true)
      (hz : (y.step a).server.streams =
        writeAll y.server.streams [(sid, createdAt w revision)]) :
      Evolves y a i (.held sid (.stamped w revision)) [(sid, createdAt w revision)]
        (.held sid (.created w))
  /-- It is not. -/
  | failed {sid : StreamId} {w : Watcher} {revision : Int} (ha : a = .resume sid)
      (hfail : (y.server.streams sid).outcomes 0 = false)
      (hz : (y.step a).server.streams =
        writeAll y.server.streams [(sid, createdAt w revision)]) :
      Evolves y a i (.held sid (.stamped w revision)) [(sid, createdAt w revision)]
        (.held sid (.failed i))
  | collected {sid : StreamId} {w : Watcher} (ha : a = .resume sid) :
      Evolves y a i (.held sid (.created w)) [] (.held sid (.sending w (history y.server w)))
  | sent {sid : StreamId} {w : Watcher} {kv : KeyValue} {kvs : List KeyValue} (ha : a = .resume sid) :
      Evolves y a i (.held sid (.sending w (kv :: kvs))) [(sid, historicalResponse w kv)]
        (.held sid (.sending w kvs))
  | inserted {sid : StreamId} {w : Watcher} (ha : a = .resume sid) (hsid : w.stream = some sid) :
      Evolves y a i (.held sid (.sending w [])) [] (.live w)
  | filled {sid : StreamId} (ha : a = .resume sid) :
      Evolves y a i (.held sid (.failed i)) []
        (.held sid (.refusing i (WatchService.responseHeader y.server)))
  | refused {sid : StreamId} {header : ResponseHeader} (ha : a = .resume sid) :
      Evolves y a i (.held sid (.refusing i header)) [(sid, WatchService.failedResponse i header)]
        .ended

/-- The id that a step of a handler is about. -/
def subject (y : WatchSystem) : Action → Option Int
  | .request _ (.createRequest _) => some y.server.watchManager.nextWatchId
  | .request _ (.cancelRequest watchId) => some watchId
  | .resume sid => (y.handlers sid).watchId?
  | .request _ .progressRequest | .request _ .notSet | .atom _ | .connect _ | .disconnect _ => none

/-- The step of a handler is about one id at most: it leaves the others as they are, and writes
no response that carries another. -/
structure Narrow (y z : WatchSystem) (sid : StreamId) (j : Option Int) : Prop where
  others : ∀ sid', sid' ≠ sid → z.handlers sid' = y.handlers sid'
  before : ∀ i, (y.handlers sid).watchId? = some i → j = some i
  after : ∀ i, (z.handlers sid).watchId? = some i → j = some i
  registry : ∀ i, j ≠ some i →
    z.server.watchManager.watchers.find? i = y.server.watchManager.watchers.find? i
  next : ∀ i, j ≠ some i →
    (z.server.watchManager.nextWatchId ≤ i ↔ y.server.watchManager.nextWatchId ≤ i)

theorem Narrow.life {y z : WatchSystem} {sid : StreamId} {j : Option Int} (hn : Narrow y z sid j)
    {i : Int} (hj : j ≠ some i) {l : Life} (hl : y.HasLife i l) : z.HasLife i l := by
  cases l with
  | unused => exact (hn.next i hj).mpr hl
  | held sid' h' =>
    obtain ⟨rfl, hid⟩ := hl
    have hne : sid' ≠ sid := by
      rintro rfl
      exact hj (hn.before i hid)
    exact ⟨hn.others sid' hne, hid⟩
  | live w => exact (hn.registry i hj).trans hl
  | ended =>
    obtain ⟨hlt, hnone, hfree⟩ := hl
    refine ⟨?_, (hn.registry i hj).trans hnone, fun sid' hid => ?_⟩
    · rw [← not_le, hn.next i hj]
      exact not_le.mpr hlt
    · by_cases hne : sid' = sid
      · subst hne
        exact hj (hn.after i hid)
      · rw [hn.others sid' hne] at hid
        exact hfree sid' hid

/-- A handler that moves on, with the registry left alone. -/
theorem narrow_moveTo {y : WatchSystem} {s : Server} {sid : StreamId} {h' : Handler}
    (hwm : s.watchManager = y.server.watchManager)
    (hafter : ∀ i, h'.watchId? = some i → (y.handlers sid).watchId? = some i) :
    Narrow y (y.moveTo s sid h') sid (y.handlers sid).watchId? where
  others sid' hne := moveTo_of_ne y s hne h'
  before _ hi := hi
  after i hi := by
    rw [moveTo_self] at hi
    exact hafter i hi
  registry i _ := by rw [moveTo_server, hwm]
  next i _ := by rw [moveTo_server, hwm]

/-- The writes of a handler to its own watcher. -/
theorem Orderly.toWrites_own {y : WatchSystem} (h : Orderly y) {sid : StreamId} {w : Watcher}
    (hw : (y.handlers sid).watcher? = some w) (r : WatchResponse) : toWrites [(w, r)] = [(sid, r)] := by
  simp [toWrites, (h.own sid w hw).1]

/-- **The step of a handler is about one id.** -/
theorem Moves.narrow {y z : WatchSystem} {sid : StreamId} {a : Action} (hm : Moves y sid a z) :
    Narrow y z sid (y.subject a) := by
  cases hm with
  | connected hh =>
    have hn : Narrow y (y.moveTo y.server sid .reading) sid (y.handlers sid).watchId? :=
      narrow_moveTo rfl nofun
    rwa [hh] at hn
  | disconnected hh =>
    have hn : Narrow y (y.moveTo y.server sid .returned) sid (y.handlers sid).watchId? :=
      narrow_moveTo rfl nofun
    rwa [hh] at hn
  | stamped hh => exact narrow_moveTo rfl (by simp [Handler.watchId?, hh])
  | created hh hok => exact narrow_moveTo rfl (by simp [Handler.watchId?, hh])
  | failed hh hok => exact narrow_moveTo rfl (by simp [Handler.watchId?, hh])
  | collected hh => exact narrow_moveTo rfl (by simp [Handler.watchId?, hh])
  | sent hh => exact narrow_moveTo rfl (by simp [Handler.watchId?, hh])
  | filled hh => exact narrow_moveTo rfl (by simp [Handler.watchId?, hh])
  | refused hh => exact narrow_moveTo rfl nofun
  | @numbered req hh =>
    refine ⟨fun sid' hne => moveTo_of_ne y _ hne _, ?_, ?_, fun i _ => rfl, ?_⟩
    · intro i hi
      rw [hh] at hi
      cases hi
    · intro i hi
      rw [moveTo_self] at hi
      exact hi
    · intro i hne
      have hne' : y.server.watchManager.nextWatchId ≠ i := fun hi => hne (congrArg some hi)
      show y.server.watchManager.nextWatchId + 1 ≤ i ↔ _
      omega
  | @canceled watchId w hh hw =>
    refine ⟨fun sid' hne => moveTo_of_ne y _ hne _, ?_, ?_, ?_, fun i _ => Iff.rfl⟩
    · intro i hi
      rw [hh] at hi
      cases hi
    · intro i hi
      rw [moveTo_self] at hi
      cases hi
    · intro i hne
      have hne' : i ≠ watchId := fun hi => hne (congrArg some hi.symm)
      show (y.server.watchManager.watchers.erase watchId).find? i = _
      rw [UnorderedMap.find?_erase, if_neg hne']
  | @inserted w hh =>
    refine ⟨fun sid' hne => moveTo_of_ne y _ hne _, fun i hi => hi, ?_, ?_, fun i _ => Iff.rfl⟩
    · intro i hi
      rw [moveTo_self] at hi
      cases hi
    · intro i hne
      have hne' : i ≠ w.watchId := by
        rintro rfl
        rw [subject, hh] at hne
        exact hne rfl
      show (y.server.watchManager.watchers.insert w.watchId w).find? i = _
      rw [UnorderedMap.find?_insert, if_neg hne']

/-- Every response that a step of a handler writes is about its id. -/
theorem writes_subject {y : WatchSystem} {a : Action} (hatom : ∀ atom, a ≠ .atom atom) :
    ∀ e ∈ y.writes a, y.subject a = some e.2.watchId := by
  intro e he
  cases a with
  | atom atom => exact absurd rfl (hatom atom)
  | connect sid => cases he
  | disconnect sid => cases he
  | request sid req =>
    cases req with
    | createRequest req => cases he
    | progressRequest => cases he
    | notSet => cases he
    | cancelRequest watchId =>
      rw [writes] at he
      split_ifs at he
      · cases hw : y.server.watchManager.watchers.find? watchId with
        | none =>
          rw [hw] at he
          cases he
        | some w =>
          rw [hw] at he
          rw [eq_of_mem_toWrites he]
          rfl
      · cases he
  | resume sid =>
    rw [subject]
    rw [writes] at he
    cases hh : y.handlers sid with
    | stamped w revision =>
      rw [hh] at he
      rw [eq_of_mem_toWrites he]
      rfl
    | sending w kvs =>
      rw [hh] at he
      cases kvs with
      | nil => cases he
      | cons kv kvs =>
        rw [eq_of_mem_toWrites he]
        rfl
    | refusing watchId header =>
      rw [hh] at he
      rw [List.mem_singleton.mp he]
      rfl
    | _ =>
      rw [hh] at he
      cases he

/-- The streams after a step are those before, and what the step writes. -/
theorem step_streams {y : WatchSystem} (h : Orderly y) (a : Action) :
    (y.step a).server.streams = writeAll y.server.streams (y.writes a) := by
  rcases step_cases y a with ⟨atom, rfl, hz⟩ | ⟨sid, hm⟩ | ⟨hatom, hws, hz⟩
  · rw [hz]
    cases atom with
    | kv op => exact exec_streams_eq h.watched.putCallback h.watched.deleteCallback op
    | grant now ttl => rfl
    | keepAlive now leaseId =>
      obtain ⟨lm, hlm⟩ := keepAlive_rest y.server now leaseId
      show (y.server.keepAlive now leaseId).streams = _
      rw [hlm]
      rfl
    | erase leaseId => rfl
  · generalize y.step a = z at hm
    cases hm with
    | connected hh => rfl
    | disconnected hh => rfl
    | numbered hh => rfl
    | canceled hh hw =>
      rw [writes, if_pos hh, hw]
      rfl
    | stamped hh =>
      rw [writes, hh]
      rfl
    | created hh hok =>
      rw [writes, hh]
      rfl
    | failed hh hok =>
      rw [writes, hh]
      rfl
    | collected hh =>
      rw [writes, hh]
      rfl
    | sent hh =>
      rw [writes, hh]
      rfl
    | inserted hh =>
      rw [writes, hh]
      rfl
    | filled hh =>
      rw [writes, hh]
      rfl
    | refused hh =>
      rw [writes, hh]
      rfl
  · rw [hz, hws]
    rfl

/-- What a handler writes to its own watcher, for the watcher's id. -/
theorem Orderly.addressed_own {y : WatchSystem} (h : Orderly y) {sid : StreamId} {w : Watcher}
    (hw : (y.handlers sid).watcher? = some w) {r : WatchResponse} (hr : r.watchId = w.watchId) :
    addressed (toWrites [(w, r)]) w.watchId = [(sid, r)] := by
  rw [h.toWrites_own hw, addressed]
  simp [hr]

/-- The id that a step of a handler is about goes on. -/
theorem Moves.evolves {y : WatchSystem} {sid : StreamId} {a : Action} (h : Orderly y)
    (hm : Moves y sid a (y.step a)) {i : Int} (hi : y.subject a = some i) {l : Life}
    (hl : y.HasLife i l) :
    ∃ l', (y.step a).HasLife i l' ∧ Evolves y a i l (addressed (y.writes a) i) l' := by
  have hstreams := step_streams h a
  generalize hz : y.step a = z at hm hstreams
  cases hm with
  | connected hh => cases hi
  | disconnected hh => cases hi
  | @numbered req hh =>
    obtain rfl : y.server.watchManager.nextWatchId = i := Option.some.inj hi
    obtain rfl := unused_unique h le_rfl hl
    exact ⟨.held sid _, ⟨moveTo_self .., rfl⟩, .numbered rfl⟩
  | @canceled watchId w hh hw =>
    obtain rfl : watchId = i := Option.some.inj hi
    obtain rfl := live_unique h hw hl
    obtain ⟨sidw, hsidw⟩ := h.streamed watchId w hw
    have hws : addressed (y.writes (.request sid (.cancelRequest watchId))) watchId =
        [(sidw, canceledResponse y.server watchId)] := by
      rw [writes, if_pos hh, hw]
      simp [toWrites, hsidw, addressed, canceledResponse]
    rw [hws]
    refine ⟨.ended, ⟨?_, ?_, ?_⟩, .canceled rfl hsidw⟩
    · exact h.watched.registry.id_lt watchId w hw
    · show (y.server.watchManager.watchers.erase watchId).find? watchId = none
      rw [UnorderedMap.find?_erase, if_pos rfl]
    · intro sid' hid
      rw [moveTo_same hh] at hid
      have hnone := (h.given sid' watchId hid).2
      rw [hw] at hnone
      cases hnone
  | @stamped w hh =>
    rw [subject] at hi
    obtain rfl := held_unique h hi hl
    rw [writes, hh]
    rw [hh] at hi
    exact ⟨.held sid _, ⟨moveTo_self .., hi⟩, .stamped rfl⟩
  | @created w revision hh hok =>
    rw [subject] at hi
    obtain rfl := held_unique h hi hl
    have hw : (y.handlers sid).watcher? = some w := by rw [hh]; rfl
    have htakes : (y.server.streams sid).outcomes 0 = true := by
      simpa only [send, sendWatchResponse, (h.own sid w hw).1, Stream.write] using hok
    rw [writes, hh] at hstreams ⊢
    rw [hh] at hi
    obtain rfl : w.watchId = i := Option.some.inj hi
    rw [h.addressed_own hw rfl]
    refine ⟨.held sid _, ⟨moveTo_self .., rfl⟩, .created rfl htakes ?_⟩
    rw [hz, hstreams]
    dsimp only
    rw [h.toWrites_own hw]
  | @failed w revision hh hok =>
    rw [subject] at hi
    obtain rfl := held_unique h hi hl
    have hw : (y.handlers sid).watcher? = some w := by rw [hh]; rfl
    have hfail : (y.server.streams sid).outcomes 0 = false := by
      simpa only [send, sendWatchResponse, (h.own sid w hw).1, Stream.write] using hok
    rw [writes, hh] at hstreams ⊢
    rw [hh] at hi
    obtain rfl : w.watchId = i := Option.some.inj hi
    rw [h.addressed_own hw rfl]
    refine ⟨.held sid _, ⟨moveTo_self .., rfl⟩, .failed rfl hfail ?_⟩
    rw [hz, hstreams]
    dsimp only
    rw [h.toWrites_own hw]
  | @collected w hh =>
    rw [subject] at hi
    obtain rfl := held_unique h hi hl
    rw [writes, hh]
    rw [hh] at hi
    exact ⟨.held sid _, ⟨moveTo_self .., hi⟩, .collected rfl⟩
  | @sent w kv kvs hh =>
    rw [subject] at hi
    obtain rfl := held_unique h hi hl
    have hw : (y.handlers sid).watcher? = some w := by rw [hh]; rfl
    rw [writes, hh]
    rw [hh] at hi
    obtain rfl : w.watchId = i := Option.some.inj hi
    rw [h.addressed_own hw rfl]
    exact ⟨.held sid _, ⟨moveTo_self .., rfl⟩, .sent rfl⟩
  | @inserted w hh =>
    rw [subject] at hi
    obtain rfl := held_unique h hi hl
    have hstream := (h.own sid w (by rw [hh]; rfl)).1
    rw [writes, hh]
    rw [hh] at hi
    obtain rfl : w.watchId = i := Option.some.inj hi
    refine ⟨.live w, ?_, .inserted rfl hstream⟩
    show (y.server.watchManager.watchers.insert w.watchId w).find? w.watchId = some w
    rw [UnorderedMap.find?_insert, if_pos rfl]
  | @filled watchId hh =>
    rw [subject] at hi
    obtain rfl := held_unique h hi hl
    rw [writes, hh]
    rw [hh] at hi
    obtain rfl : watchId = i := Option.some.inj hi
    exact ⟨.held sid _, ⟨moveTo_self .., rfl⟩, .filled rfl⟩
  | @refused watchId header hh =>
    rw [subject] at hi
    obtain rfl := held_unique h hi hl
    obtain ⟨hlt, hnone⟩ := h.given sid i hi
    have hother : ∀ sid', sid' ≠ sid → (y.handlers sid').watchId? ≠ some i :=
      fun sid' hne hid => hne (h.distinct sid' sid i hid hi)
    rw [writes, hh]
    rw [hh] at hi
    obtain rfl : watchId = i := Option.some.inj hi
    have hws : addressed [(sid, WatchService.failedResponse watchId header)] watchId =
        [(sid, WatchService.failedResponse watchId header)] := by
      simp [addressed, WatchService.failedResponse]
    dsimp only
    rw [hws]
    refine ⟨.ended, ⟨hlt, hnone, ?_⟩, .refused rfl⟩
    intro sid' hid
    by_cases hne : sid' = sid
    · subst hne
      rw [moveTo_self] at hid
      cases hid
    · rw [moveTo_of_ne y _ hne] at hid
      exact hother sid' hne hid

/-- **Every step is a step of the life of each id**: the id goes on, and the responses that
carry it that are written are those of its life. -/
theorem life_step {y : WatchSystem} (h : Orderly y) {i : Int} {l : Life} (hl : y.HasLife i l)
    (a : Action) :
    ∃ l', (y.step a).HasLife i l' ∧ Evolves y a i l (addressed (y.writes a) i) l' := by
  rcases step_cases y a with ⟨atom, rfl, hz⟩ | ⟨sid, hm⟩ | ⟨hatom, hws, hz⟩
  · -- The registry and the handlers stay; an operation of the store notifies the live watchers.
    have hwm := (atom_rest y.server atom).1
    have hlife : ({ y with server := atom.exec y.server } : WatchSystem).HasLife i l := by
      cases l <;> simp only [HasLife, hwm] <;> exact hl
    rw [hz]
    refine ⟨l, hlife, ?_⟩
    cases atom with
    | kv op =>
      rw [writes, addressed_sends h.watched.registry]
      cases hw : y.server.watchManager.watchers.find? i with
      | none =>
        refine .rest ?_
        rintro w op' rfl
        have hw' : y.server.watchManager.watchers.find? i = some w := hl
        rw [hw] at hw'
        cases hw'
      | some w =>
        obtain rfl := live_unique h hw hl
        obtain ⟨sid, hsid⟩ := h.streamed i w hw
        have hnotified : Evolves y (.atom (.kv op)) i (.live w) _ (.live w) := .notified rfl hsid
        simpa [hsid] using hnotified
    | grant now ttl => exact .rest (by simp)
    | keepAlive now leaseId => exact .rest (by simp)
    | erase leaseId => exact .rest (by simp)
  · have hatom : ∀ atom, a ≠ .atom atom := by
      rintro atom rfl
      cases hm
    by_cases hi : y.subject a = some i
    · exact hm.evolves h hi hl
    · refine ⟨l, hm.narrow.life hi hl, ?_⟩
      have hnil : addressed (y.writes a) i = [] := by
        rw [addressed, List.filter_eq_nil_iff]
        intro e he hid
        rw [writes_subject hatom e he] at hi
        exact hi (congrArg some (of_decide_eq_true hid))
      rw [hnil]
      exact .rest fun w op _ => hatom _
  · rw [hz, hws]
    exact ⟨l, hl, .rest fun w op _ ha => hatom _ ha⟩

/-- A stream that takes every write goes on so. -/
theorem writable_step {y : WatchSystem} (h : Orderly y) {sid : StreamId}
    (hwr : Writable y.server.streams sid) (a : Action) : Writable (y.step a).server.streams sid := by
  rw [step_streams h]
  exact hwr.writeAll _

theorem writable_run {env : Env} {sid : StreamId} (hwr : ∀ n, env.outcomes sid n = true)
    (acts : List Action) : Writable ((start env).run acts).server.streams sid := by
  have hinv := Run.invariant WatchSystem.step
    (I := fun y => Orderly y ∧ Writable y.server.streams sid)
    (fun _ a h => ⟨h.1.step a, writable_step h.1 h.2 a⟩) ⟨orderly_start env, hwr⟩ acts
  exact hinv.2

/-- The store changes in a step only by an operation of another thread. -/
theorem step_kvStore (y : WatchSystem) (a : Action) :
    (∃ op, a = .atom (.kv op) ∧ (y.step a).server.kvStore = (op.exec y.server).kvStore) ∨
      ((∀ op, a ≠ .atom (.kv op)) ∧ (y.step a).server.kvStore = y.server.kvStore) := by
  rcases step_cases y a with ⟨atom, rfl, hz⟩ | ⟨sid, hm⟩ | ⟨hatom, -, hz⟩
  · rcases atom_cases y.server atom with ⟨op, rfl⟩ | ⟨hno, hstore, -⟩
    · exact .inl ⟨op, rfl, rfl⟩
    · exact .inr ⟨fun op ha => hno op (Action.atom.inj ha), hstore⟩
  · generalize y.step a = z at hm
    cases hm <;> exact .inr ⟨by simp, rfl⟩
  · exact .inr ⟨fun op ha => hatom _ ha, by rw [hz]⟩

/-- The revision does not go back. -/
theorem revision_le_step (y : WatchSystem) (a : Action) :
    y.server.kvStore.revision ≤ (y.step a).server.kvStore.revision := by
  rcases step_kvStore y a with ⟨op, -, hstore⟩ | ⟨-, hstore⟩
  · rw [hstore, exec_revision]
    exact (Int.lt_succ _).le
  · rw [hstore]

/-- **The life rule**: what each step of the life of an id keeps holds of the id along a run. -/
theorem life_run {i : Int} {P : WatchSystem → Life → Prop} {C : WatchSystem → Action → Prop}
    (hstep : ∀ (y : WatchSystem) a l l', Orderly y → y.HasLife i l → C y a →
      Evolves y a i l (addressed (y.writes a) i) l' → P y l → P (y.step a) l')
    {y : WatchSystem} (hy : Orderly y) (hl : ∃ l, y.HasLife i l ∧ P y l) {acts : List Action}
    (hC : Run.Along WatchSystem.step C y acts) : ∃ l, (y.run acts).HasLife i l ∧ P (y.run acts) l := by
  have hinv := Run.invariant_along WatchSystem.step
    (I := fun y => Orderly y ∧ ∃ l, y.HasLife i l ∧ P y l) ?_ ⟨hy, hl⟩ hC
  · exact hinv.2
  · rintro y a ⟨hy, l, hl, hP⟩ hCa
    obtain ⟨l', hl', he⟩ := life_step hy hl a
    exact ⟨hy.step a, l', hl', hstep y a l l' hy hl hCa he hP⟩

end WatchSystem

end EtcdLite
