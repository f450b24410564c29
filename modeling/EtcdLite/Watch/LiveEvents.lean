import EtcdLite.Watch.DeleteOrder

/-!
# Live events

The events that the watch callbacks send, of a put or of a range deletion: what each carries
of the operation it comes from.

The header of each has the revision of the operation. A `PUT` event has the key-value that is
stored, at that revision, and the one before if the watcher asked for it. A `DELETE` event is
made of nothing but the key-value that is removed: so its revision is an earlier one
(`live_revisions_iff`), and the previous key-value is left out (`live_prev_kv_iff`).
-/

namespace EtcdLite

open Server WatchManager

/-! ### What a stream takes -/

/-- Of what is written in turn, that of which the write succeeds. -/
def taken {α : Type} (outcomes : ℕ → Bool) : List α → List α
  | [] => []
  | a :: l => (if outcomes 0 then [a] else []) ++ taken (fun n => outcomes (n + 1)) l

theorem mem_taken {α : Type} {outcomes : ℕ → Bool} {l : List α} {a : α} :
    a ∈ taken outcomes l ↔ ∃ n : ℕ, l[n]? = some a ∧ outcomes n = true := by
  induction l generalizing outcomes with
  | nil => simp [taken]
  | cons b l ih =>
    rw [taken, List.mem_append, ih]
    constructor
    · rintro (hfirst | ⟨n, hn, hok⟩)
      · split_ifs at hfirst with hok
        · exact ⟨0, congrArg some (List.mem_singleton.mp hfirst).symm, hok⟩
        · cases hfirst
      · exact ⟨n + 1, hn, hok⟩
    · rintro ⟨n, hn, hok⟩
      cases n with
      | zero =>
        obtain rfl : b = a := Option.some.inj hn
        exact .inl (by rw [if_pos hok]; exact List.mem_singleton_self b)
      | succ n => exact .inr ⟨n, hn, hok⟩

/-- A stream takes the responses whose writes succeed. -/
theorem written_writeEach (st : Stream) (rs : List WatchResponse) :
    (st.writeEach rs).written = st.written ++ taken st.outcomes rs := by
  induction rs generalizing st with
  | nil => exact (List.append_nil _).symm
  | cons r rs ih =>
    show ((st.write r).2.writeEach rs).written = _
    rw [ih, taken, ← List.append_assoc]
    congr 1
    cases hok : st.outcomes 0 <;> simp [Stream.write, hok]

/-! ### Live responses -/

/-- The responses that a stream takes in an operation of the store. -/
def Server.liveOn (s : Server) (op : KvOp) (sid : StreamId) : List WatchResponse :=
  ((op.exec s).streams sid).written.drop (s.streams sid).written.length

/-- The watchers that a range deletion notifies on a stream, each with the entry it is notified
of, in the order of the writes. -/
def Server.toldOn (s : Server) (key rangeEnd : Bytes) (sid : StreamId) : List (Watcher × KeyInfo) :=
  (s.matched key rangeEnd).flatMap fun e =>
    (s.watchManager.watchers.toList.filter fun x =>
      x.2.active && keyMatchesWatcher e.2.kv.key x.2 && decide (x.2.stream = some sid)).map
        fun x => (x.2, e.2)

/-- The operation is a range deletion that removes an entry, and the stream takes the write that
tells the watcher so. -/
def Server.Hears (s : Server) (op : KvOp) (sid : StreamId) (w : Watcher) (info : KeyInfo) : Prop :=
  ∃ key rangeEnd n, op = .delete key rangeEnd true ∧
    (s.toldOn key rangeEnd sid)[n]? = some (w, info) ∧ (s.streams sid).outcomes n = true

section Operation

variable {s : Server} {op : KvOp} {sid : StreamId}

theorem liveOn_eq (h : Watched s) (op : KvOp) (sid : StreamId) :
    s.liveOn op sid = taken (s.streams sid).outcomes (writtenTo (toWrites (op.sends s)) sid) := by
  rw [liveOn, exec_streams_eq h.putCallback h.deleteCallback, writeAll_apply, written_writeEach,
    List.drop_left]

/-- What a range deletion writes to a stream. -/
theorem writtenTo_delete (s : Server) (key rangeEnd : Bytes) (sid : StreamId) :
    writtenTo (toWrites ((KvOp.delete key rangeEnd true).sends s)) sid =
      (s.toldOn key rangeEnd sid).map fun x =>
        deleteResponse x.1 x.2.kv (s.kvStore.revision + 1) := by
  rw [KvOp.sends, if_pos rfl, WatchAct.sends, writtenTo_toWrites, List.filter_flatMap,
    List.map_flatMap, toldOn, List.map_flatMap]
  refine List.flatMap_congr fun e _ => ?_
  rw [notices, List.filter_map, List.filter_filter, List.map_map, List.map_map]
  congr 1
  refine List.filter_congr fun x _ => ?_
  simp [Bool.and_comm]

/-- **What a live response is**: a watcher of the key is told of a put, or of a removal. -/
theorem liveOn_cases (h : Watched s) {r : WatchResponse} (hr : r ∈ s.liveOn op sid) :
    (∃ key value lease prevKv i w, op = .put key value lease prevKv ∧ Watches s key i w sid ∧
      r = putResponse w (putInfo (s.data key) key value lease (s.kvStore.revision + 1)).kv
        ((s.data key).map KeyInfo.kv) (s.kvStore.revision + 1)) ∨
    ∃ w info, s.Hears op sid w info ∧ r = deleteResponse w info.kv (s.kvStore.revision + 1) := by
  rw [liveOn_eq h, mem_taken] at hr
  obtain ⟨n, hn, hok⟩ := hr
  cases op with
  | put key value lease prevKv =>
    rw [KvOp.sends, WatchAct.sends] at hn
    obtain ⟨i, w, hw, rfl⟩ := mem_writtenTo_notices.mp (List.mem_of_getElem? hn)
    exact .inl ⟨key, value, lease, prevKv, i, w, rfl, hw, rfl⟩
  | delete key rangeEnd prevKvs =>
    cases prevKvs with
    | false => cases hn
    | true =>
      rw [writtenTo_delete, List.getElem?_map, Option.map_eq_some_iff] at hn
      obtain ⟨⟨w, info⟩, hx, rfl⟩ := hn
      exact .inr ⟨w, info, ⟨key, rangeEnd, n, rfl, hx, hok⟩, rfl⟩
  | txn compares success failure => cases hn

/-- A removal that a stream takes is there. -/
theorem Server.Hears.mem_liveOn (h : Watched s) {w : Watcher} {info : KeyInfo}
    (hhears : s.Hears op sid w info) :
    deleteResponse w info.kv (s.kvStore.revision + 1) ∈ s.liveOn op sid := by
  obtain ⟨key, rangeEnd, n, rfl, hx, hok⟩ := hhears
  rw [liveOn_eq h, mem_taken]
  refine ⟨n, ?_, hok⟩
  rw [writtenTo_delete, List.getElem?_map, hx]
  rfl

/-- Those that a deletion notifies are registered watchers of the keys it removes. -/
theorem watches_of_mem_toldOn (h : Watched s) {key rangeEnd : Bytes} {w : Watcher} {info : KeyInfo}
    (hx : (w, info) ∈ s.toldOn key rangeEnd sid) :
    s.data info.kv.key = some info ∧ ∃ i, Watches s info.kv.key i w sid := by
  obtain ⟨e, he, hmem⟩ := List.mem_flatMap.mp hx
  obtain ⟨⟨i, w'⟩, hw, heq⟩ := List.mem_map.mp hmem
  obtain ⟨rfl, rfl⟩ := Prod.mk.inj heq
  obtain ⟨hfound, hall⟩ := List.mem_filter.mp hw
  simp only [Bool.and_eq_true, decide_eq_true_eq] at hall
  obtain ⟨hfind, -⟩ := mem_matched.mp he
  refine ⟨?_, i, UnorderedMap.mem_toList.mp hfound, hall.1.1, hall.2, hall.1.2⟩
  rw [(h.dated.data e.1 e.2 hfind).key]
  exact hfind

theorem Server.Hears.watches (h : Watched s) {w : Watcher} {info : KeyInfo}
    (hhears : s.Hears op sid w info) :
    s.data info.kv.key = some info ∧ ∃ i, Watches s info.kv.key i w sid := by
  obtain ⟨key, rangeEnd, n, -, hx, -⟩ := hhears
  exact watches_of_mem_toldOn h (List.mem_of_getElem? hx)

/-- Every live response has the revision of its operation in its header. -/
theorem header_liveOn (h : Watched s) {r : WatchResponse} (hr : r ∈ s.liveOn op sid) :
    r.header.revision = s.kvStore.revision + 1 := by
  rcases liveOn_cases h hr with ⟨_, _, _, _, _, _, _, _, rfl⟩ | ⟨w, info, -, rfl⟩ <;> rfl

/-- **The key-values of its events have the revision of the operation exactly when the stream
hears of no removal.** -/
theorem modRevision_liveOn_iff (h : Watched s) (op : KvOp) (sid : StreamId) :
    (∀ r ∈ s.liveOn op sid, ∀ e ∈ r.events, e.kv.modRevision = s.kvStore.revision + 1) ↔
      ∀ w info, ¬ s.Hears op sid w info := by
  constructor
  · intro hall w info hhears
    have hmod : info.kv.modRevision = s.kvStore.revision + 1 :=
      hall _ (hhears.mem_liveOn h) _ (List.mem_singleton_self _)
    -- What is removed was stored before.
    have hdated := h.dated.data _ _ (hhears.watches h).1
    have hle := hdated.mod_le
    rw [hdated.mod, hmod] at hle
    omega
  · intro hnone r hr e he
    rcases liveOn_cases h hr with ⟨key, value, lease, prevKv, i, w, -, -, rfl⟩ | ⟨w, info, hhears, -⟩
    · rw [List.mem_singleton.mp he]
      rfl
    · exact absurd hhears (hnone w info)

/-- The event has the key-value that was stored just before the operation, if there was one and
the watcher was created with `prev_kv`; otherwise it has none. -/
def Server.PrevKvRight (s : Server) (r : WatchResponse) (e : Event) : Prop :=
  ∃ w, s.watchManager.watchers.find? r.watchId = some w ∧
    e.prevKv = if w.prevKv then (s.data e.kv.key).map KeyInfo.kv else none

/-- **The previous key-values of its events are right exactly when no watcher that hears of a
removal was created with `prev_kv`.** -/
theorem prevKv_liveOn_iff (h : Watched s) (op : KvOp) (sid : StreamId) :
    (∀ r ∈ s.liveOn op sid, ∀ e ∈ r.events, s.PrevKvRight r e) ↔
      ∀ w info, s.Hears op sid w info → w.prevKv = false := by
  constructor
  · intro hall w info hhears
    obtain ⟨hstored, i, hw⟩ := hhears.watches h
    obtain ⟨w', hw', hprev⟩ := hall _ (hhears.mem_liveOn h) _ (List.mem_singleton_self _)
    have hid : w.watchId = i := h.registry.id_eq i w hw.registered
    obtain rfl : w = w' := Option.some.inj (hw.registered.symm.trans (hid ▸ hw'))
    rw [hstored] at hprev
    cases hasked : w.prevKv with
    | false => rfl
    | true =>
      rw [hasked] at hprev
      cases hprev
  · intro hasked r hr e he
    rcases liveOn_cases h hr with ⟨key, value, lease, prevKv, i, w, -, hw, rfl⟩ |
      ⟨w, info, hhears, rfl⟩
    · rw [List.mem_singleton.mp he]
      refine ⟨w, ?_, rfl⟩
      exact (congrArg _ (h.registry.id_eq i w hw.registered)).trans hw.registered
    · obtain ⟨-, i, hw⟩ := hhears.watches h
      rw [List.mem_singleton.mp he]
      refine ⟨w, (congrArg _ (h.registry.id_eq i w hw.registered)).trans hw.registered, ?_⟩
      rw [hasked w info hhears]
      rfl

end Operation

/-! ### Runs -/

namespace WatchSystem

/-- The live responses that a stream takes in a step, each with the revision of the operation
it comes from. -/
def live (sid : StreamId) (y : WatchSystem) : Action → List (Int × WatchResponse)
  | .atom (.kv op) =>
    (y.server.liveOn op sid).map fun r => ((op.exec y.server).kvStore.revision, r)
  | .atom _ | .connect _ | .request _ _ | .disconnect _ | .resume _ => []

/-- The live responses that a stream takes in a run of a new server. -/
abbrev liveLog (env : Env) (acts : List Action) (sid : StreamId) : List (Int × WatchResponse) :=
  Run.log step (live sid) (start env) acts

/-- The live events on a stream carry the revisions of the operations they come from: their
headers and their key-values both. So along the live events of each watcher the revisions of
the key-values never decrease, and those of different operations differ. -/
structure LiveRevisions (env : Env) (acts : List Action) (sid : StreamId) : Prop where
  same : ∀ x ∈ liveLog env acts sid, x.2.header.revision = x.1 ∧
    ∀ e ∈ x.2.events, e.kv.modRevision = x.1
  ordered : ∀ i, ((liveLog env acts sid).filter fun x => x.2.watchId = i).Pairwise fun x x' =>
    ∀ e ∈ x.2.events, ∀ e' ∈ x'.2.events, e.kv.modRevision ≤ e'.kv.modRevision ∧
      (x.1 ≠ x'.1 → e.kv.modRevision ≠ e'.kv.modRevision)

/-- The stream hears of no removal in the step. -/
def HearsNone (sid : StreamId) (y : WatchSystem) (a : Action) : Prop :=
  ∀ op, a = .atom (.kv op) → ∀ w info, ¬ y.server.Hears op sid w info

/-- Live responses come in the order of their operations. -/
theorem liveLog_sorted (env : Env) (acts : List Action) (sid : StreamId) :
    (liveLog env acts sid).Pairwise fun x x' => x.1 ≤ x'.1 := by
  have hinv : (∀ x ∈ liveLog env acts sid, x.1 ≤ ((start env).run acts).server.kvStore.revision) ∧
      (liveLog env acts sid).Pairwise fun x x' => x.1 ≤ x'.1 := by
    refine Run.invariant_log step (I := fun y (l : List (Int × WatchResponse)) =>
      (∀ x ∈ l, x.1 ≤ y.server.kvStore.revision) ∧ l.Pairwise fun x x' => x.1 ≤ x'.1)
        ?_ ⟨by simp, .nil⟩ acts
    rintro y a l ⟨hle, hsorted⟩
    have hrev := revision_le_step y a
    have hnew : ∀ x ∈ live sid y a, x.1 = (y.step a).server.kvStore.revision := by
      intro x hx
      cases a with
      | atom atom =>
        cases atom with
        | kv op =>
          obtain ⟨r, -, rfl⟩ := List.mem_map.mp hx
          rfl
        | _ => cases hx
      | _ => cases hx
    refine ⟨?_, List.pairwise_append.mpr ⟨hsorted, ?_, ?_⟩⟩
    · intro x hx
      rcases List.mem_append.mp hx with hx | hx
      · exact (hle x hx).trans hrev
      · exact (hnew x hx).le
    · refine List.pairwise_of_forall_mem_list fun x hx x' hx' => ?_
      rw [hnew x hx, hnew x' hx']
    · intro x hx x' hx'
      rw [hnew x' hx']
      exact (hle x hx).trans hrev
  exact hinv.2

/-- The live responses of a step carry the revision of the operation exactly when the stream
hears of no removal. -/
theorem live_iff {y : WatchSystem} (h : Orderly y) (sid : StreamId) (a : Action) :
    (∀ x ∈ live sid y a, x.2.header.revision = x.1 ∧ ∀ e ∈ x.2.events, e.kv.modRevision = x.1) ↔
      HearsNone sid y a := by
  have hother : live sid y a = [] → (∀ op, a ≠ .atom (.kv op)) →
      ((∀ x ∈ live sid y a, x.2.header.revision = x.1 ∧
        ∀ e ∈ x.2.events, e.kv.modRevision = x.1) ↔ HearsNone sid y a) := by
    intro hnil hno
    rw [hnil]
    exact iff_of_true (by simp) fun op ha => absurd ha (hno op)
  cases a with
  | atom atom =>
    cases atom with
    | kv op =>
      have hstep : HearsNone sid y (.atom (.kv op)) ↔ ∀ w info, ¬ y.server.Hears op sid w info :=
        ⟨fun hnone => hnone op rfl, fun hnone op' ha => by cases ha; exact hnone⟩
      rw [hstep, ← modRevision_liveOn_iff h.watched, live, List.forall_mem_map, exec_revision]
      exact forall₂_congr fun r hr => and_iff_right (header_liveOn h.watched hr)
    | grant now ttl => exact hother rfl (by simp)
    | keepAlive now leaseId => exact hother rfl (by simp)
    | erase leaseId => exact hother rfl (by simp)
  | connect sid' => exact hother rfl (by simp)
  | request sid' req => exact hother rfl (by simp)
  | disconnect sid' => exact hother rfl (by simp)
  | resume sid' => exact hother rfl (by simp)

/-- **Live events carry the revisions of their operations exactly when no removal is heard of.**
However watchers come and go in between, and whatever becomes of the writes: the live events
that a stream takes carry, in the header and in the key-value, the revision of the operation
they come from, in order, exactly when the stream takes no event of a removal. -/
theorem live_revisions_iff (env : Env) (acts : List Action) (sid : StreamId) :
    LiveRevisions env acts sid ↔ Run.Along step (HearsNone sid) (start env) acts := by
  have hsame : (∀ x ∈ liveLog env acts sid, x.2.header.revision = x.1 ∧
      ∀ e ∈ x.2.events, e.kv.modRevision = x.1) ↔
        Run.Along step (HearsNone sid) (start env) acts :=
    (Run.forall_mem_log step).trans (Run.along_congr step (I := Orderly) (fun _ a h => h.step a)
      (fun _ a h => live_iff h sid a) (orderly_start env) acts)
  refine ⟨fun h => hsame.mp h.same, fun hnone => ?_⟩
  have hall := hsame.mpr hnone
  refine ⟨hall, fun i => ?_⟩
  have hsorted := (liveLog_sorted env acts sid).filter fun x => decide (x.2.watchId = i)
  refine hsorted.imp_of_mem fun {x x'} hx hx' hle e he e' he' => ?_
  rw [(hall x (List.mem_filter.mp hx).1).2 e he, (hall x' (List.mem_filter.mp hx').1).2 e' he']
  exact ⟨hle, id⟩

/-- **A removal is told of at the revision of the put before it.** -/
theorem deletion_misdated :
    ¬ LiveRevisions .plain [.connect 0, .request 0 (.createRequest { key := [107] }),
      .resume 0, .resume 0, .resume 0, .resume 0, .atom (.kv (.put [107] [118] 0 none)),
      .atom (.kv (.delete [107] [] true))] 0 := by
  intro h
  have hmem : ((3 : Int), ({
      header := { clusterId := 1, memberId := 1, revision := 3 }
      watchId := 1
      events := [{
        type := .DELETE
        kv := { key := [107], value := [118], createRevision := 2, modRevision := 2, version := 1 } }]
      } : WatchResponse)) ∈ liveLog .plain [.connect 0, .request 0 (.createRequest { key := [107] }),
        .resume 0, .resume 0, .resume 0, .resume 0, .atom (.kv (.put [107] [118] 0 none)),
        .atom (.kv (.delete [107] [] true))] 0 := by
    decide
  exact absurd ((h.same _ hmem).2 _ (List.mem_singleton_self _)) (by decide)

/-- The live events that the stream takes in the step have the right previous key-values. -/
def PrevKvsRight (sid : StreamId) (y : WatchSystem) (a : Action) : Prop :=
  ∀ op, a = .atom (.kv op) →
    ∀ r ∈ y.server.liveOn op sid, ∀ e ∈ r.events, y.server.PrevKvRight r e

/-- No watcher that the stream tells of a removal in the step was created with `prev_kv`. -/
def HearsUnasked (sid : StreamId) (y : WatchSystem) (a : Action) : Prop :=
  ∀ op, a = .atom (.kv op) → ∀ w info, y.server.Hears op sid w info → w.prevKv = false

/-- **The previous key-values of live events are right exactly when no watcher that is told of a
removal was created with `prev_kv`.** However watchers come and go in between, and whatever
becomes of the writes. -/
theorem live_prev_kv_iff (env : Env) (acts : List Action) (sid : StreamId) :
    Run.Along step (PrevKvsRight sid) (start env) acts ↔
      Run.Along step (HearsUnasked sid) (start env) acts := by
  refine Run.along_congr step (I := Orderly) (fun _ a h => h.step a) (fun y a h => ?_)
    (orderly_start env) acts
  exact forall₂_congr fun op _ => prevKv_liveOn_iff h.watched op sid

/-- **A watcher that asks for previous key-values is told of a removal without one.** -/
theorem removal_without_prev_kv :
    ¬ Run.Along step (PrevKvsRight 0) (start .plain)
      [.connect 0, .request 0 (.createRequest { key := [107], prevKv := true }),
        .resume 0, .resume 0, .resume 0, .resume 0, .atom (.kv (.put [107] [118] 0 none)),
        .atom (.kv (.delete [107] [] true))] := by
  rintro ⟨-, -, -, -, -, -, -, h, -⟩
  obtain ⟨w, hw, hprev⟩ := h _ rfl _ (List.mem_singleton_self _) _ (List.mem_singleton_self _)
  cases hw
  cases hprev

end WatchSystem

end EtcdLite
