import EtcdLite.Watch.LiveEvents

/-!
# What a watcher receives

The event responses that a stream takes for one watcher, from its registration on. A
registration adds historical events of the range (`received_register`), an operation that
follows those of its own that are meant for the watcher (`received_exec`), each as far as the
stream takes them. A stream that is lost takes a first part of what is written to it
(`Lossy.taken_eq`).
-/

namespace EtcdLite

open Server WatchManager

/-! ### What a stream takes before it is lost -/

section Taken

variable {α β : Type} {outcomes : ℕ → Bool}

theorem taken_map (f : α → β) (outcomes : ℕ → Bool) (l : List α) :
    taken outcomes (l.map f) = (taken outcomes l).map f := by
  induction l generalizing outcomes with
  | nil => rfl
  | cons a l ih =>
    rw [List.map_cons, taken, taken, ih, List.map_append]
    congr 1
    split_ifs <;> rfl

theorem taken_sublist (outcomes : ℕ → Bool) (l : List α) : (taken outcomes l).Sublist l := by
  induction l generalizing outcomes with
  | nil => exact .slnil
  | cons a l ih =>
    rw [taken]
    split_ifs
    · exact (ih _).cons_cons a
    · exact (ih _).cons a

/-- Every write succeeds. -/
theorem taken_of_true (l : List α) : taken (fun _ => true) l = l := by
  induction l with
  | nil => rfl
  | cons a l ih => rw [taken, if_pos rfl, ih, List.singleton_append]

/-- The first `n` writes succeed. -/
theorem taken_first (n : ℕ) (l : List α) : taken (fun m => decide (m < n)) l = l.take n := by
  induction l generalizing n with
  | nil => rw [taken, List.take_nil]
  | cons a l ih =>
    cases n with
    | zero =>
      have hnone : taken (fun _ => false) l = [] := by simpa using ih 0
      simp [taken, hnone]
    | succ n =>
      have hrest := ih n
      simpa [taken] using hrest

/-- Once a write fails, every later one does. -/
def Lossy (outcomes : ℕ → Bool) : Prop := ∀ n, outcomes n = false → outcomes (n + 1) = false

theorem lossy_first (n : ℕ) : Lossy fun m => decide (m < n) := by
  intro m hm
  simp only [decide_eq_false_iff_not] at hm ⊢
  omega

theorem Lossy.le (h : Lossy outcomes) {m n : ℕ} (hmn : m ≤ n) (hn : outcomes n = true) :
    outcomes m = true := by
  by_contra hm
  have hall : ∀ d, outcomes (m + d) = false := by
    intro d
    induction d with
    | zero => exact eq_false_of_ne_true hm
    | succ d ih => exact h (m + d) ih
  have hfail := hall (n - m)
  rw [Nat.add_sub_cancel' hmn, hn] at hfail
  cases hfail

theorem Lossy.shift (h : Lossy outcomes) (k : ℕ) : Lossy fun n => outcomes (n + k) := by
  intro n hn
  have hnext := h (n + k) hn
  rwa [show n + k + 1 = n + 1 + k by omega] at hnext

/-- What is taken before the stream is lost is a first part of what is written. -/
theorem Lossy.taken_eq (h : Lossy outcomes) (l : List α) : ∃ n, taken outcomes l = l.take n := by
  induction l generalizing outcomes with
  | nil => exact ⟨0, rfl⟩
  | cons a l ih =>
    cases hok : outcomes 0 with
    | true =>
      obtain ⟨n, hn⟩ := ih (h.shift 1)
      exact ⟨n + 1, by rw [taken, if_pos hok, hn, List.take_succ_cons, List.singleton_append]⟩
    | false =>
      refine ⟨0, List.eq_nil_iff_forall_not_mem.mpr fun b hb => ?_⟩
      obtain ⟨n, -, hn⟩ := mem_taken.mp hb
      rw [h.le (Nat.zero_le n) hn] at hok
      cases hok

/-- A stream that is not lost by then takes all that is written. -/
theorem Lossy.taken_all (h : Lossy outcomes) {l : List α} (halive : outcomes l.length = true) {a : α}
    (ha : a ∈ l) : a ∈ taken outcomes l := by
  obtain ⟨n, hn, rfl⟩ := List.mem_iff_getElem.mp ha
  exact mem_taken.mpr ⟨n, List.getElem?_eq_getElem hn, h.le hn.le halive⟩

end Taken

theorem outcomes_writeEach (st : Stream) (rs : List WatchResponse) (n : ℕ) :
    (st.writeEach rs).outcomes n = st.outcomes (n + rs.length) := by
  induction rs generalizing st with
  | nil => rfl
  | cons r rs ih =>
    show ((st.write r).2.writeEach rs).outcomes n = _
    rw [ih]
    rfl

/-! ### What a watcher receives -/

/-- The response carries the id, and events. -/
def tells (i : Int) (r : WatchResponse) : Bool := decide (r.watchId = i) && !r.events.isEmpty

/-- The event responses that a stream has taken for a watcher, in order. -/
def Server.received (s : Server) (sid : StreamId) (i : Int) : List WatchResponse :=
  (s.streams sid).written.filter (tells i)

/-- The watcher has been told of a put that stored the key-value. -/
def Server.Told (s : Server) (sid : StreamId) (i : Int) (kv : KeyValue) : Prop :=
  ∃ r ∈ s.received sid i, ∃ e ∈ r.events, e.type = .PUT ∧ e.kv = kv

/-- What an operation writes to a stream. -/
def WatchAct.writesTo (s : Server) (sid : StreamId) (a : WatchAct) : List WatchResponse :=
  writtenTo (toWrites (a.sends s)) sid

/-- The event responses of an operation that the stream takes for a watcher. -/
def WatchAct.adds (s : Server) (sid : StreamId) (i : Int) (a : WatchAct) : List WatchResponse :=
  (taken (s.streams sid).outcomes (a.writesTo s sid)).filter (tells i)

/-- The response tells a registered watcher of an operation, and is of its revision, as are the
key-values that it tells of as put. -/
structure News (s : Server) (i : Int) (a : WatchAct) (r : WatchResponse) : Prop where
  registered : (s.watchManager.watchers.find? i).isSome
  header : r.header.revision = s.kvStore.revision + 1
  revision : (a.exec s).kvStore.revision = s.kvStore.revision + 1
  puts : ∀ e ∈ r.events, e.type = .PUT → e.kv.modRevision = s.kvStore.revision + 1

section Step

variable {s : Server} {sid : StreamId} {i : Int}

theorem stream_exec (h : Watched s) (a : WatchAct) (sid : StreamId) :
    (a.exec s).streams sid = (s.streams sid).writeEach (a.writesTo s sid) := by
  rw [exec_streams h, sendAll_eq_writeAll, writeAll_apply, WatchAct.writesTo]

/-- What a put writes to a stream is its event, to each active watcher of the key. -/
theorem mem_writesTo_put {key value : Bytes} {lease : Int} {prevKv : Option KeyValue}
    {r : WatchResponse} : r ∈ (WatchAct.put key value lease prevKv).writesTo s sid ↔
      ∃ i w, Watches s key i w sid ∧
        r = putResponse w (putInfo (s.data key) key value lease (s.kvStore.revision + 1)).kv
          ((s.data key).map KeyInfo.kv) (s.kvStore.revision + 1) := by
  rw [WatchAct.writesTo, WatchAct.sends]
  exact mem_writtenTo_notices

/-- **An operation adds to what a watcher has received** what the stream takes for it. -/
theorem received_exec (h : Watched s) (a : WatchAct) (sid : StreamId) (i : Int) :
    (a.exec s).received sid i = s.received sid i ++ a.adds s sid i := by
  rw [received, stream_exec h, written_writeEach, List.filter_append]
  rfl

/-- The event responses that an operation writes for an id that has been given out are its news. -/
theorem news_of_writesTo (h : Watched s) (hi : i < s.watchManager.nextWatchId) {a : WatchAct}
    {r : WatchResponse} (hr : r ∈ a.writesTo s sid) (htells : tells i r = true) :
    News s i a r := by
  simp only [tells, Bool.and_eq_true, decide_eq_true_eq] at htells
  obtain ⟨hid, hevents⟩ := htells
  cases a with
  | put key value lease prevKv =>
    obtain ⟨i', w, hw, rfl⟩ := mem_writesTo_put.mp hr
    obtain rfl : i' = i := (h.registry.id_eq i' w hw.registered).symm.trans hid
    refine ⟨by rw [hw.registered]; rfl, rfl, exec_revision s (.put key value lease prevKv), ?_⟩
    intro e he _
    rw [List.mem_singleton.mp he]
    rfl
  | deleteRange req =>
    have hr' : r ∈ writtenTo (toWrites ((KvOp.delete req.key req.rangeEnd true).sends s)) sid := hr
    rw [writtenTo_delete] at hr'
    obtain ⟨⟨w, info⟩, hx, rfl⟩ := List.mem_map.mp hr'
    obtain ⟨-, i', hw⟩ := watches_of_mem_toldOn h hx
    obtain rfl : i' = i := (h.registry.id_eq i' w hw.registered).symm.trans hid
    refine ⟨by rw [hw.registered]; rfl, rfl, exec_revision s (.delete req.key req.rangeEnd true), ?_⟩
    intro e he htype
    rw [List.mem_singleton.mp he] at htype
    cases htype
  | register req stream =>
    rw [WatchAct.writesTo, writtenTo_toWrites] at hr
    obtain ⟨e, he, rfl⟩ := List.mem_map.mp hr
    have hnew := watchId_of_sends_register (List.mem_filter.mp he).1
    omega
  | cancel watchId =>
    rw [WatchAct.writesTo, writtenTo_toWrites] at hr
    obtain ⟨e, he, rfl⟩ := List.mem_map.mp hr
    obtain ⟨w, -, rfl⟩ := List.mem_map.mp (List.mem_filter.mp he).1
    cases hevents

theorem news_of_adds (h : Watched s) (hi : i < s.watchManager.nextWatchId) {a : WatchAct}
    {r : WatchResponse} (hr : r ∈ a.adds s sid i) : News s i a r := by
  obtain ⟨htaken, htells⟩ := List.mem_filter.mp hr
  exact news_of_writesTo h hi ((taken_sublist _ _).subset htaken) htells

theorem revision_le_exec (s : Server) (a : WatchAct) :
    s.kvStore.revision ≤ (a.exec s).kvStore.revision := by
  have hop : ∀ op : KvOp, s.kvStore.revision ≤ (op.exec s).kvStore.revision := by
    intro op
    rw [exec_revision]
    exact (Int.lt_succ _).le
  cases a with
  | put key value lease prevKv => exact hop (.put key value lease prevKv)
  | deleteRange r => exact hop (.delete r.key r.rangeEnd true)
  | register req stream => exact le_refl _
  | cancel watchId => exact le_refl _

/-- What is in the store after an operation was there before, or the operation is a put of it. -/
theorem data_of_exec {a : WatchAct} {k : Bytes} {info : KeyInfo} (hk : (a.exec s).data k = some info) :
    s.data k = some info ∨ ∃ value lease prevKv, a = .put k value lease prevKv ∧
      info = putInfo (s.data k) k value lease (s.kvStore.revision + 1) := by
  cases a with
  | put key value lease prevKv =>
    rw [WatchAct.exec, data_put] at hk
    by_cases hkey : k = key
    · subst hkey
      rw [Function.update_self] at hk
      exact .inr ⟨value, lease, prevKv, rfl, (Option.some.inj hk).symm⟩
    · rw [Function.update_of_ne hkey] at hk
      exact .inl hk
  | deleteRange r =>
    rw [WatchAct.exec, congrFun (data_deleteRange s r) k] at hk
    split_ifs at hk
    exact .inl hk
  | register req stream => exact .inl hk
  | cancel watchId => exact .inl hk

theorem told_of_put {w : Watcher} {kv : KeyValue} {prevKv : Option KeyValue} {revision : Int}
    (h : putResponse w kv prevKv revision ∈ s.received sid i) : s.Told sid i kv :=
  ⟨_, h, _, List.mem_singleton_self _, rfl, rfl⟩

theorem told_of_history {w : Watcher} {kv : KeyValue}
    (h : historicalResponse w kv ∈ s.received sid i) : s.Told sid i kv :=
  ⟨_, h, _, List.mem_singleton_self _, rfl, rfl⟩

/-- What a watcher has been told it has been told of for good. -/
theorem Server.Told.exec (h : Watched s) {kv : KeyValue} (ht : s.Told sid i kv) (a : WatchAct) :
    (a.exec s).Told sid i kv := by
  obtain ⟨r, hr, he⟩ := ht
  refine ⟨r, ?_, he⟩
  rw [received_exec h]
  exact List.mem_append_left _ hr

end Step

/-! ### Registration -/

/-- The server, when the next writes to a stream will have these outcomes. -/
def Server.withOutcomes (s : Server) (sid : StreamId) (outcomes : ℕ → Bool) : Server :=
  { s with streams := Function.update s.streams sid { s.streams sid with outcomes := outcomes } }

/-- Where a registration leads, when the writes to its stream from then on have these outcomes,
and what follows. -/
def Server.resumed (s : Server) (req : WatchCreateRequest) (sid : StreamId) (outcomes : ℕ → Bool)
    (post : List WatchAct) : Server :=
  Run.final WatchAct.exec ((s.withOutcomes sid outcomes).registerWatcher req (some sid)).2.2 post

theorem Watched.withOutcomes {s : Server} (h : Watched s) (sid : StreamId) (outcomes : ℕ → Bool) :
    Watched (s.withOutcomes sid outcomes) where
  dated := ⟨h.dated.one_le, h.dated.data⟩
  putCallback := h.putCallback
  deleteCallback := h.deleteCallback
  registry := h.registry
  ids := by
    intro sid' r hr
    have hwritten : ((s.withOutcomes sid outcomes).streams sid').written =
        (s.streams sid').written := by
      by_cases hsid : sid' = sid
      · subst hsid
        simp [Server.withOutcomes]
      · simp [Server.withOutcomes, Function.update_of_ne hsid]
    rw [hwritten] at hr
    exact h.ids sid' r hr

section Registration

variable {s : Server} {req : WatchCreateRequest} {sid : StreamId} {outcomes : ℕ → Bool}

theorem outcomes_withOutcomes : ((s.withOutcomes sid outcomes).streams sid).outcomes = outcomes := by
  simp [Server.withOutcomes]

/-- What a registration writes. -/
theorem writesTo_register (hrev : req.startRevision > 0) :
    (WatchAct.register req (some sid)).writesTo (s.withOutcomes sid outcomes) sid =
      createdResponse (s.watchManager.makeWatcher req (some sid)) (some s.kvStore) ::
        if outcomes 0 = true then
          (s.kvStore.range req.key req.rangeEnd 0 false false).map
            (historicalResponse (s.watchManager.makeWatcher req (some sid)))
        else [] := by
  have htakes : (s.withOutcomes sid outcomes).takesCreated req (some sid) = outcomes 0 := by
    show ((s.withOutcomes sid outcomes).streams sid).outcomes 0 = _
    rw [outcomes_withOutcomes]
  rw [WatchAct.writesTo, writtenTo_toWrites, WatchAct.sends]
  simp only [htakes, hrev, and_true]
  cases outcomes 0 with
  | false => simp [Server.withOutcomes, makeWatcher]
  | true =>
    rw [if_pos rfl, if_pos rfl, List.filter_eq_self.mpr, List.map_cons, List.map_map]
    · rfl
    · intro e he
      rcases List.mem_cons.mp he with rfl | he
      · exact decide_eq_true rfl
      · obtain ⟨kv, -, rfl⟩ := List.mem_map.mp he
        exact decide_eq_true rfl

/-- **What a new watcher receives at its registration**: historical events, of the entries of the
range, as far as the stream takes them. -/
theorem received_register (h : Watched s) (hrev : req.startRevision > 0) :
    (s.resumed req sid outcomes []).received sid s.watchManager.nextWatchId =
      if outcomes 0 = true then
        (taken (fun n => outcomes (n + 1)) (s.kvStore.range req.key req.rangeEnd 0 false false)).map
          (historicalResponse (s.watchManager.makeWatcher req (some sid)))
      else [] := by
  have hnone : (s.withOutcomes sid outcomes).received sid s.watchManager.nextWatchId = [] := by
    rw [received, List.filter_eq_nil_iff]
    intro r hr htells
    have hlt := (h.withOutcomes sid outcomes).ids sid r hr
    simp only [tells, Bool.and_eq_true, decide_eq_true_eq] at htells
    exact absurd htells.1 hlt.ne
  show ((WatchAct.register req (some sid)).exec (s.withOutcomes sid outcomes)).received sid _ = _
  rw [received_exec (h.withOutcomes sid outcomes), hnone, List.nil_append, WatchAct.adds,
    outcomes_withOutcomes, writesTo_register hrev]
  cases hok : outcomes 0 with
  | false => simp [taken, hok]
  | true =>
    rw [if_pos rfl, if_pos rfl, taken, if_pos hok, taken_map, List.singleton_append,
      List.filter_cons_of_neg (by simp [tells, createdResponse]), List.filter_eq_self]
    intro r hr
    obtain ⟨kv, -, rfl⟩ := List.mem_map.mp hr
    simp [tells, historicalResponse, makeWatcher]

/-- The id of a new watcher has been given out. -/
theorem given_register : s.watchManager.nextWatchId <
    (s.resumed req sid outcomes []).watchManager.nextWatchId := by
  have hnext := (registerWatcher_registered (s.withOutcomes sid outcomes) req (some sid)).nextWatchId
  exact hnext ▸ Int.lt_succ _

/-- What is received at a registration is of entries of the range. -/
theorem mem_received_register (h : Watched s) (hrev : req.startRevision > 0) {r : WatchResponse}
    (hr : r ∈ (s.resumed req sid outcomes []).received sid s.watchManager.nextWatchId) :
    ∃ k info, s.data k = some info ∧ keyInRange k req.key req.rangeEnd = true ∧
      r = historicalResponse (s.watchManager.makeWatcher req (some sid)) info.kv := by
  rw [received_register h hrev] at hr
  split_ifs at hr
  · obtain ⟨kv, hkv, rfl⟩ := List.mem_map.mp hr
    obtain ⟨k, info, hk, hin, rfl⟩ :=
      (s.kvStore.mem_range req.key req.rangeEnd).mp ((taken_sublist _ _).subset hkv)
    exact ⟨k, info, hk, hin, rfl⟩
  · cases hr

end Registration

end EtcdLite
