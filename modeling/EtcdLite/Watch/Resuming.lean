import EtcdLite.Kv.Standing
import EtcdLite.Watch.Received
import EtcdLite.Watch.Replay

/-!
# Resuming a watch

A client that has lost its stream asks for the events from the revision after the last one it
saw. Two things have to be right for that: the events of a watcher come in the order of their
revisions, so that all before the last one have been seen (`resumed_in_order_iff`); and those
before the revision that is asked for are left out (`resume_replays_range`).

The historical events are the entries of the range, in the order of their keys, each at the
revision it was stored at. So the first holds only when the revisions ascend with the keys,
and the second only when there is nothing to leave out.
-/

namespace EtcdLite

open Server WatchManager

/-! ### Lists in ascending order -/

/-- In a list whose keys ascend, a relation holds of the elements in order exactly when it holds
of those whose keys are in order. -/
theorem pairwise_iff_of_ascending {α β : Type*} [Preorder β] {f : α → β} {R : α → α → Prop}
    {l : List α} (hl : l.Pairwise fun a b => f a < f b) :
    l.Pairwise R ↔ ∀ a ∈ l, ∀ b ∈ l, f a < f b → R a b := by
  constructor
  · intro hR a ha b hb hab
    obtain ⟨m, hm, rfl⟩ := List.mem_iff_getElem.mp ha
    obtain ⟨n, hn, rfl⟩ := List.mem_iff_getElem.mp hb
    have hlt : m < n := by
      by_contra hle
      rcases Nat.lt_or_ge n m with hnm | hnm
      · exact lt_asymm hab (List.pairwise_iff_getElem.mp hl n m hn hm hnm)
      · obtain rfl : m = n := by omega
        exact lt_irrefl _ hab
    exact List.pairwise_iff_getElem.mp hR m n hm hn hlt
  · intro hR
    exact hl.imp_of_mem fun ha hb hab => hR _ ha _ hb hab

/-- In a strictly ascending list, what is not above an element of a first part is in that part. -/
theorem mem_take_of_le {α β : Type*} [Preorder β] [DecidableLT β] {f : α → β} {l : List α} {n : ℕ}
    (hl : l.Pairwise fun a b => f a < f b) {x a : α} (hx : x ∈ l.take n) (ha : a ∈ l)
    (hle : f a ≤ f x) : a ∈ l.take n := by
  refine (mem_take_iff hl n).mpr ⟨ha, ?_⟩
  have hfewer := List.countP_mono_left (p := fun y => decide (f y < f a))
    (q := fun y => decide (f y < f x)) (l := l) fun y _ hy =>
      decide_eq_true ((of_decide_eq_true hy).trans_le hle)
  exact hfewer.trans_lt ((mem_take_iff hl n).mp hx).2

/-! ### Revisions along the keys -/

/-- The revisions of the entries of a range, along their keys, are related so. -/
def Server.RevisionsAscend (s : Server) (R : Int → Int → Prop) (key rangeEnd : Bytes) : Prop :=
  ∀ k info k' info', s.data k = some info → s.data k' = some info' →
    keyInRange k key rangeEnd = true → keyInRange k' key rangeEnd = true → k < k' →
      R info.modRevision info'.modRevision

/-- A range has its entries in ascending order of their keys. -/
theorem range_ascends {s : KVStore} (h : s.Keyed) (key rangeEnd : Bytes) :
    (s.range key rangeEnd 0 false false).Pairwise fun kv kv' => kv.key < kv'.key := by
  rw [KVStore.range, KVStore.rangeInternal_eq, if_neg (lt_irrefl 0)]
  exact List.pairwise_map.mpr (KVStore.sortedInfos_pairwise key rangeEnd h)

/-- So the revisions of the range are in order exactly when they are along the keys. -/
theorem revisionsAscend_iff {s : Server} (h : s.Dated) (R : Int → Int → Prop)
    (key rangeEnd : Bytes) : s.RevisionsAscend R key rangeEnd ↔
      (s.kvStore.range key rangeEnd 0 false false).Pairwise fun kv kv' =>
        R kv.modRevision kv'.modRevision := by
  rw [pairwise_iff_of_ascending (range_ascends h.keyed key rangeEnd)]
  constructor
  · intro hR kv hkv kv' hkv' hlt
    obtain ⟨k, info, hk, hr, rfl⟩ := (s.kvStore.mem_range key rangeEnd).mp hkv
    obtain ⟨k', info', hk', hr', rfl⟩ := (s.kvStore.mem_range key rangeEnd).mp hkv'
    have hdated := h.data k info hk
    have hdated' := h.data k' info' hk'
    rw [hdated.key, hdated'.key] at hlt
    rw [← hdated.mod, ← hdated'.mod]
    exact hR k info k' info' hk hk' hr hr' hlt
  · intro hR k info k' info' hk hk' hr hr' hlt
    have hdated := h.data k info hk
    have hdated' := h.data k' info' hk'
    rw [hdated.mod, hdated'.mod]
    refine hR _ ((s.kvStore.mem_range key rangeEnd).mpr ⟨k, info, hk, hr, rfl⟩) _
      ((s.kvStore.mem_range key rangeEnd).mpr ⟨k', info', hk', hr', rfl⟩) ?_
    rwa [hdated.key, hdated'.key]

/-! ### The order of what is received -/

/-- What a watcher has received is in the order of the revisions, up to the current one. -/
structure InStep (sid : StreamId) (i : Int) (s : Server) : Prop where
  watched : Watched s
  /-- The id has been given out. -/
  given : i < s.watchManager.nextWatchId
  sorted : (s.received sid i).Pairwise fun r r' => r.header.revision ≤ r'.header.revision
  le : ∀ r ∈ s.received sid i, r.header.revision ≤ s.kvStore.revision

/-- Every operation keeps it so. -/
theorem InStep.exec {sid : StreamId} {i : Int} {s : Server} (h : InStep sid i s) (a : WatchAct) :
    InStep sid i (a.exec s) := by
  have hnews : ∀ r ∈ a.adds s sid i, News s i a r := fun r hr => news_of_adds h.watched h.given hr
  refine ⟨h.watched.exec a, h.given.trans_le (nextWatchId_le_exec s a), ?_, ?_⟩
  · rw [received_exec h.watched]
    refine List.pairwise_append.mpr ⟨h.sorted, ?_, ?_⟩
    · refine List.pairwise_of_forall_mem_list fun r hr r' hr' => ?_
      rw [(hnews r hr).header, (hnews r' hr').header]
    · intro r hr r' hr'
      have hle := h.le r hr
      rw [(hnews r' hr').header]
      omega
  · intro r hr
    rw [received_exec h.watched] at hr
    rcases List.mem_append.mp hr with hr | hr
    · exact (h.le r hr).trans (revision_le_exec s a)
    · rw [(hnews r hr).header, (hnews r hr).revision]

/-- A watcher that has seen an event has been told of every entry of its range up to the
revision of the event, and of every entry as long as its stream is not lost. -/
structure CaughtUp (w : Watcher) (sid : StreamId) (s : Server) : Prop where
  inStep : InStep sid w.watchId s
  lossy : Lossy (s.streams sid).outcomes
  /-- No other watcher has its id. -/
  same : ∀ w', s.watchManager.watchers.find? w.watchId = some w' → w' = w
  full : (s.watchManager.watchers.find? w.watchId).isSome → (s.streams sid).outcomes 0 = true →
    ∀ k info, s.data k = some info → keyInRange k w.key w.rangeEnd = true →
      s.Told sid w.watchId info.kv
  seen : ∀ last, (s.received sid w.watchId).getLast? = some last →
    ∀ k info, s.data k = some info → keyInRange k w.key w.rangeEnd = true →
      info.modRevision ≤ last.header.revision → s.Told sid w.watchId info.kv

/-- Every operation keeps a watcher caught up. -/
theorem CaughtUp.exec {w : Watcher} {sid : StreamId} {s : Server} (h : CaughtUp w sid s)
    (hsid : w.stream = some sid) (a : WatchAct) : CaughtUp w sid (a.exec s) where
  inStep := h.inStep.exec a
  lossy := by
    have hshift := h.lossy.shift (a.writesTo s sid).length
    rw [stream_exec h.inStep.watched]
    simpa only [Lossy, outcomes_writeEach] using hshift
  same w' hw' := h.same w' (find?_of_exec h.inStep.given hw')
  full := by
    intro hlive halive k info hk hr
    obtain ⟨w', hw'⟩ := Option.isSome_iff_exists.mp hlive
    have hbefore := find?_of_exec h.inStep.given hw'
    obtain rfl := h.same w' hbefore
    rw [stream_exec h.inStep.watched, outcomes_writeEach, Nat.zero_add] at halive
    rcases data_of_exec hk with hk | ⟨value, lease, prevKv, rfl, rfl⟩
    · have htold := h.full (by rw [hbefore]; rfl) (h.lossy.le (Nat.zero_le _) halive) k info hk hr
      exact htold.exec h.inStep.watched a
    · -- The stream takes all that is written, and so the event of the put.
      have hwatches : Watches s k w'.watchId w' sid :=
        ⟨hbefore, h.inStep.watched.registry.active _ _ hbefore, hsid, hr⟩
      have hwritten : putResponse w' (putInfo (s.data k) k value lease (s.kvStore.revision + 1)).kv
          ((s.data k).map KeyInfo.kv) (s.kvStore.revision + 1) ∈
            (WatchAct.put k value lease prevKv).writesTo s sid :=
        mem_writesTo_put.mpr ⟨_, w', hwatches, rfl⟩
      have hnew : putResponse w' (putInfo (s.data k) k value lease (s.kvStore.revision + 1)).kv
          ((s.data k).map KeyInfo.kv) (s.kvStore.revision + 1) ∈
            (WatchAct.put k value lease prevKv).adds s sid w'.watchId :=
        List.mem_filter.mpr ⟨h.lossy.taken_all halive hwritten, by simp [tells, putResponse]⟩
      have hreceived := List.mem_append_right (s.received sid w'.watchId) hnew
      rw [← received_exec h.inStep.watched] at hreceived
      exact told_of_put hreceived
  seen := by
    intro last hlast k info hk hr hle
    rw [received_exec h.inStep.watched] at hlast
    rcases List.eq_nil_or_concat (a.adds s sid w.watchId) with hnil | ⟨rest, r, hadds⟩
    · -- Nothing new is received, and what is put now is after the last event.
      rw [hnil, List.append_nil] at hlast
      have hbound := h.inStep.le last (List.mem_of_getLast? hlast)
      rcases data_of_exec hk with hk | ⟨value, lease, prevKv, -, rfl⟩
      · exact (h.seen last hlast k info hk hr hle).exec h.inStep.watched a
      · have hnext : s.kvStore.revision + 1 ≤ last.header.revision := hle
        omega
    · -- Something is received, so the stream was not lost before.
      have hr' : r ∈ a.adds s sid w.watchId := by rw [hadds]; simp
      have hlive := (news_of_adds h.inStep.watched h.inStep.given hr').registered
      obtain ⟨n, hn, hok⟩ := mem_taken.mp (List.mem_filter.mp hr').1
      have hwritten := List.mem_of_getElem? hn
      rcases data_of_exec hk with hk | ⟨value, lease, prevKv, rfl, rfl⟩
      · exact (h.full hlive (h.lossy.le (Nat.zero_le n) hok) k info hk hr).exec h.inStep.watched a
      · -- What is received of the put is its event.
        obtain ⟨i, w', -, rfl⟩ := mem_writesTo_put.mp hwritten
        have hreceived := List.mem_append_right (s.received sid w.watchId) hr'
        rw [← received_exec h.inStep.watched] at hreceived
        exact told_of_put hreceived

/-! ### Registration -/

section Registration

variable {s : Server} {req : WatchCreateRequest} {sid : StreamId} {outcomes : ℕ → Bool}

/-- When the revisions do not decrease along the keys, the historical events are in order. -/
theorem inStep_register (h : Watched s) (hrev : req.startRevision > 0)
    (hasc : s.RevisionsAscend (· ≤ ·) req.key req.rangeEnd) (outcomes : ℕ → Bool) :
    InStep sid s.watchManager.nextWatchId (s.resumed req sid outcomes []) where
  watched := (h.withOutcomes sid outcomes).exec (.register req (some sid))
  given := given_register
  sorted := by
    rw [received_register h hrev]
    split_ifs
    · exact List.pairwise_map.mpr
        (((revisionsAscend_iff h.dated _ _ _).mp hasc).sublist (taken_sublist _ _))
    · exact .nil
  le := by
    intro r hr
    obtain ⟨k, info, hk, -, rfl⟩ := mem_received_register h hrev hr
    have hdated := h.dated.data k info hk
    show info.kv.modRevision ≤ s.kvStore.revision
    rw [← hdated.mod]
    exact hdated.mod_le

/-- When they ascend, a new watcher is caught up, wherever it loses its stream. -/
theorem caughtUp_register (h : Watched s) (hrev : req.startRevision > 0)
    (hasc : s.RevisionsAscend (· < ·) req.key req.rangeEnd) (hlossy : Lossy outcomes) :
    CaughtUp (s.watchManager.makeWatcher req (some sid)) sid (s.resumed req sid outcomes []) where
  inStep := by
    refine inStep_register h hrev ?_ outcomes
    exact fun k info k' info' hk hk' hr hr' hlt => (hasc k info k' info' hk hk' hr hr' hlt).le
  lossy := by
    have hstream := stream_exec (h.withOutcomes sid outcomes) (.register req (some sid)) sid
    show Lossy (((WatchAct.register req (some sid)).exec (s.withOutcomes sid outcomes)).streams
      sid).outcomes
    have hshift := hlossy.shift
      ((WatchAct.register req (some sid)).writesTo (s.withOutcomes sid outcomes) sid).length
    rw [hstream]
    simpa only [Lossy, outcomes_writeEach, outcomes_withOutcomes] using hshift
  same := by
    intro w' hw'
    have hfind := (registerWatcher_registered (s.withOutcomes sid outcomes) req (some sid)).find?
      s.watchManager.nextWatchId
    have hw'' := hfind.symm.trans hw'
    split_ifs at hw'' with hnew
    · exact (Option.some.inj hw'').symm
    · exact absurd (h.registry.id_lt _ _ hw'') (Int.lt_irrefl _)
  full := by
    intro hlive halive k info hk hr
    have hkv : info.kv ∈ s.kvStore.range req.key req.rangeEnd 0 false false :=
      (s.kvStore.mem_range req.key req.rangeEnd).mpr ⟨k, info, hk, hr, rfl⟩
    have hstream := stream_exec (h.withOutcomes sid outcomes) (.register req (some sid)) sid
    have halive' : (((WatchAct.register req (some sid)).exec
      (s.withOutcomes sid outcomes)).streams sid).outcomes 0 = true := halive
    rw [hstream, outcomes_writeEach, outcomes_withOutcomes, Nat.zero_add,
      writesTo_register hrev] at halive'
    have hok : outcomes 0 = true := hlossy.le (Nat.zero_le _) halive'
    rw [if_pos hok, List.length_cons, List.length_map] at halive'
    -- The stream takes all of the range.
    refine told_of_history (w := s.watchManager.makeWatcher req (some sid)) ?_
    show _ ∈ (s.resumed req sid outcomes []).received sid s.watchManager.nextWatchId
    rw [received_register h hrev, if_pos hok]
    exact List.mem_map_of_mem ((hlossy.shift 1).taken_all halive' hkv)
  seen := by
    intro last hlast k info hk hr hle
    have hkv : info.kv ∈ s.kvStore.range req.key req.rangeEnd 0 false false :=
      (s.kvStore.mem_range req.key req.rangeEnd).mpr ⟨k, info, hk, hr, rfl⟩
    have hmem : last ∈ (s.resumed req sid outcomes []).received sid s.watchManager.nextWatchId :=
      List.mem_of_getLast? hlast
    rw [received_register h hrev] at hmem
    split_ifs at hmem with hok
    · -- The stream takes a first part of the range, and the last event is of an entry in it.
      obtain ⟨n, hn⟩ := (hlossy.shift 1).taken_eq (s.kvStore.range req.key req.rangeEnd 0 false false)
      obtain ⟨kv, hkv', rfl⟩ := List.mem_map.mp hmem
      refine told_of_history (w := s.watchManager.makeWatcher req (some sid)) ?_
      show _ ∈ (s.resumed req sid outcomes []).received sid s.watchManager.nextWatchId
      rw [received_register h hrev, if_pos hok]
      refine List.mem_map_of_mem ?_
      rw [hn] at hkv' ⊢
      have hsorted := (revisionsAscend_iff h.dated _ _ _).mp hasc
      refine mem_take_of_le hsorted hkv' hkv ?_
      rw [← (h.dated.data k info hk).mod]
      exact hle
    · cases hmem

end Registration

/-! ### In the order of the revisions -/

/-- Whatever becomes of the writes to its stream, and whatever operations follow: the revisions of
the headers that a new watcher receives with events never decrease. -/
def HeadersInOrder (s : Server) (req : WatchCreateRequest) (sid : StreamId) : Prop :=
  ∀ outcomes post, ((s.resumed req sid outcomes post).received sid s.watchManager.nextWatchId).Pairwise
    fun r r' => r.header.revision ≤ r'.header.revision

/-- Wherever a new watcher loses its stream, and whatever operations follow: it has been told of
every entry of its range that there is, up to the last revision it has seen. -/
def NothingMissed (s : Server) (req : WatchCreateRequest) (sid : StreamId) : Prop :=
  ∀ outcomes, Lossy outcomes → ∀ post,
    let t := s.resumed req sid outcomes post
    ∀ last, (t.received sid s.watchManager.nextWatchId).getLast? = some last →
      ∀ k info, t.data k = some info → keyInRange k req.key req.rangeEnd = true →
        info.modRevision ≤ last.header.revision →
          t.Told sid s.watchManager.nextWatchId info.kv

section Order

variable {s : Server} {req : WatchCreateRequest} {sid : StreamId}

theorem headersInOrder_iff (h : Watched s) (hrev : req.startRevision > 0) (sid : StreamId) :
    HeadersInOrder s req sid ↔ s.RevisionsAscend (· ≤ ·) req.key req.rangeEnd := by
  constructor
  · intro hall
    have hsorted := hall (fun _ => true) []
    rw [received_register h hrev, if_pos rfl, taken_of_true, List.pairwise_map] at hsorted
    exact (revisionsAscend_iff h.dated _ _ _).mpr hsorted
  · intro hasc outcomes post
    have hinv : InStep sid s.watchManager.nextWatchId (s.resumed req sid outcomes post) :=
      Run.invariant WatchAct.exec (fun _ a ht => ht.exec a) (inStep_register h hrev hasc outcomes) post
    exact hinv.sorted

theorem nothingMissed_of_ascend (h : Watched s) (hrev : req.startRevision > 0)
    (hasc : s.RevisionsAscend (· < ·) req.key req.rangeEnd) : NothingMissed s req sid := by
  intro outcomes hlossy post
  have hinv : CaughtUp (s.watchManager.makeWatcher req (some sid)) sid
      (s.resumed req sid outcomes post) :=
    Run.invariant WatchAct.exec (fun _ a ht => ht.exec rfl a)
      (caughtUp_register h hrev hasc hlossy) post
  exact hinv.seen

/-- If nothing is missed, the revisions ascend: a key whose revision is not above that of a key
before it is missed by a watcher that loses its stream after that one. -/
theorem ascend_of_nothingMissed (h : Watched s) (hrev : req.startRevision > 0)
    (hall : NothingMissed s req sid) : s.RevisionsAscend (· < ·) req.key req.rangeEnd := by
  intro k info k' info' hk hk' hr hr' hlt
  by_contra hle
  have hkv : info.kv ∈ s.kvStore.range req.key req.rangeEnd 0 false false :=
    (s.kvStore.mem_range req.key req.rangeEnd).mpr ⟨k, info, hk, hr, rfl⟩
  obtain ⟨before, after, hrange⟩ := List.append_of_mem hkv
  have hreceived : (s.resumed req sid (fun n => decide (n < before.length + 2)) []).received sid
      s.watchManager.nextWatchId = (before ++ [info.kv]).map
        (historicalResponse (s.watchManager.makeWatcher req (some sid))) := by
    have hshift : (fun n => decide (n + 1 < before.length + 2)) =
        fun n => decide (n < before.length + 1) := by
      funext n
      simp
    rw [received_register h hrev, if_pos (by simp), hshift, taken_first, hrange]
    simp [List.take_append]
  have htold := hall _ (lossy_first (before.length + 2)) [] _
    (by rw [hreceived, List.map_append]; exact List.getLast?_concat) k' info' hk' hr'
    (by rw [(h.dated.data k info hk).mod] at hle; exact not_lt.mp hle)
  obtain ⟨r, hmem, e, he, -, hkv'⟩ := htold
  rw [hreceived] at hmem
  obtain ⟨kv, hbefore, rfl⟩ := List.mem_map.mp hmem
  rw [List.mem_singleton.mp he] at hkv'
  obtain rfl : kv = info'.kv := hkv'
  -- The keys before are smaller.
  have hascends := range_ascends h.dated.keyed req.key req.rangeEnd
  rw [hrange] at hascends
  have hkey := (h.dated.data k info hk).key
  have hkey' := (h.dated.data k' info' hk').key
  rcases List.mem_append.mp hbefore with hbefore | hlast
  · have hsmaller := (List.pairwise_append.mp hascends).2.2 _ hbefore _ List.mem_cons_self
    rw [hkey, hkey'] at hsmaller
    exact lt_asymm hlt hsmaller
  · rw [← hkey, ← hkey', List.mem_singleton.mp hlast] at hlt
    exact lt_irrefl _ hlt

end Order

/-- **Events come in the order of their revisions exactly when the revisions of the range are in
the order of its keys.** In any state that can be reached, for a watcher that asks for history: the
revisions it receives never decrease exactly when those of the entries of its range do not along
the keys. And with that, a client that has lost its stream at any point has missed no entry up to
the last revision it saw exactly when they ascend. -/
theorem resumed_in_order_iff (env : Env) (acts : List WatchSystem.Action) (req : WatchCreateRequest)
    (hrev : req.startRevision > 0) (sid : StreamId) :
    let s := ((WatchSystem.start env).run acts).server
    (HeadersInOrder s req sid ↔ s.RevisionsAscend (· ≤ ·) req.key req.rangeEnd) ∧
    (HeadersInOrder s req sid ∧ NothingMissed s req sid ↔
      s.RevisionsAscend (· < ·) req.key req.rangeEnd) := by
  intro s
  have h : Watched s := (WatchSystem.orderly_run env acts).watched
  refine ⟨headersInOrder_iff h hrev sid, fun hall => ascend_of_nothingMissed h hrev hall.2, ?_⟩
  intro hasc
  refine ⟨(headersInOrder_iff h hrev sid).mpr ?_, nothingMissed_of_ascend h hrev hasc⟩
  exact fun k info k' info' hk hk' hr hr' hlt => (hasc k info k' info' hk hk' hr hr' hlt).le

/-- Two keys, put in the order of the keys. -/
theorem resumed_in_order_two :
    let s := ((WatchSystem.start .plain).run [.atom (.kv (.put [97] [118] 0 none)),
      .atom (.kv (.put [98] [118] 0 none))]).server
    let req : WatchCreateRequest := { key := [97], rangeEnd := [0], startRevision := 1 }
    (HeadersInOrder s req 0 ↔ s.RevisionsAscend (· ≤ ·) req.key req.rangeEnd) ∧
    (HeadersInOrder s req 0 ∧ NothingMissed s req 0 ↔
      s.RevisionsAscend (· < ·) req.key req.rangeEnd) :=
  resumed_in_order_iff .plain _ { key := [97], rangeEnd := [0], startRevision := 1 } (by decide) 0

/-- **Two keys, put in the other order**: the first event is at the later revision. -/
theorem resumed_out_of_order :
    let s := ((WatchSystem.start .plain).run [.atom (.kv (.put [98] [118] 0 none)),
      .atom (.kv (.put [97] [118] 0 none))]).server
    let req : WatchCreateRequest := { key := [97], rangeEnd := [0], startRevision := 1 }
    ¬ (HeadersInOrder s req 0 ∧ NothingMissed s req 0) := by
  intro s req hall
  exact absurd (hall.1 (fun _ => true) []) (by decide)

/-! ### What is replayed -/

/-- What the historical events of a registration tell of, on a stream that takes every write. -/
def Server.historicalEvents (s : Server) (req : WatchCreateRequest) (sid : StreamId) :
    List (EventType × KeyValue) :=
  (((s.resumed req sid (fun _ => true) []).received sid s.watchManager.nextWatchId).flatMap
    WatchResponse.events).map fun e => (e.type, e.kv)

/-- The historical events are puts of the entries of the range that were stored at the revision that
is asked for or later, each once. -/
def ReplaysNew (s : Server) (req : WatchCreateRequest) (sid : StreamId) : Prop :=
  (s.historicalEvents req sid).Perm
    (((s.matched req.key req.rangeEnd).filter fun e => req.startRevision ≤ e.2.modRevision).map
      fun e => (.PUT, e.2.kv))

/-- Whatever becomes of the writes to its stream, and whatever operations follow: of the puts there
had been when it was registered, a new watcher is told of none before the revision it asks for. -/
def ResendsNothing (s : Server) (req : WatchCreateRequest) (sid : StreamId) : Prop :=
  ∀ outcomes post, ∀ r ∈ (s.resumed req sid outcomes post).received sid s.watchManager.nextWatchId,
    ∀ e ∈ r.events, e.type = .PUT → e.kv.modRevision ≤ s.kvStore.revision →
      req.startRevision ≤ e.kv.modRevision

/-- Of the puts up to a revision, a watcher has been told of those in `old` alone. -/
structure ToldSince (R : Int) (old : KeyValue → Prop) (sid : StreamId) (i : Int) (s : Server) :
    Prop where
  watched : Watched s
  given : i < s.watchManager.nextWatchId
  le : R ≤ s.kvStore.revision
  told : ∀ r ∈ s.received sid i, ∀ e ∈ r.events, e.type = .PUT → e.kv.modRevision ≤ R → old e.kv

/-- Every operation keeps it so: what it tells of as put is its own. -/
theorem ToldSince.exec {R : Int} {old : KeyValue → Prop} {sid : StreamId} {i : Int} {s : Server}
    (h : ToldSince R old sid i s) (a : WatchAct) : ToldSince R old sid i (a.exec s) where
  watched := h.watched.exec a
  given := h.given.trans_le (nextWatchId_le_exec s a)
  le := h.le.trans (revision_le_exec s a)
  told := by
    intro r hr e he htype hle
    rw [received_exec h.watched] at hr
    rcases List.mem_append.mp hr with hold | hnew
    · exact h.told r hold e he htype hle
    · have hnext := (news_of_adds h.watched h.given hnew).puts e he htype
      have hbound := h.le
      omega

section Replayed

variable {s : Server} {req : WatchCreateRequest} {sid : StreamId}

/-- **The historical events are puts of the entries of the range**, each once. -/
theorem historicalEvents_perm (h : Watched s) (hrev : req.startRevision > 0) (sid : StreamId) :
    (s.historicalEvents req sid).Perm
      ((s.matched req.key req.rangeEnd).map fun e => (.PUT, e.2.kv)) := by
  have hevents : s.historicalEvents req sid =
      (s.kvStore.range req.key req.rangeEnd 0 false false).map fun kv => (.PUT, kv) := by
    rw [Server.historicalEvents, received_register h hrev, if_pos rfl, taken_of_true,
      List.flatMap_map, List.map_flatMap, List.map_eq_flatMap]
    rfl
  have hperm := (s.kvStore.range_perm req.key req.rangeEnd).map fun kv => (EventType.PUT, kv)
  rw [← hevents, ← matched, List.map_map] at hperm
  exact hperm

theorem replaysNew_iff (h : Watched s) (hrev : req.startRevision > 0) (sid : StreamId) :
    ReplaysNew s req sid ↔
      ∀ e ∈ s.matched req.key req.rangeEnd, req.startRevision ≤ e.2.modRevision := by
  have hperm := historicalEvents_perm h hrev sid
  constructor
  · intro hnew e he
    have hlength := (hnew.symm.trans hperm).length_eq
    rw [List.length_map, List.length_map, List.length_filter_eq_length_iff] at hlength
    exact of_decide_eq_true (hlength e he)
  · intro hall
    rw [ReplaysNew, List.filter_eq_self.mpr fun e he => decide_eq_true (hall e he)]
    exact hperm

/-- **All else that a new watcher is told of as put is put later.** -/
theorem old_of_told (h : Watched s) (hrev : req.startRevision > 0) (outcomes : ℕ → Bool)
    (post : List WatchAct) {r : WatchResponse}
    (hr : r ∈ (s.resumed req sid outcomes post).received sid s.watchManager.nextWatchId) {e : Event}
    (he : e ∈ r.events) (htype : e.type = .PUT) (hle : e.kv.modRevision ≤ s.kvStore.revision) :
    ∃ x ∈ s.matched req.key req.rangeEnd, e.kv = x.2.kv := by
  have hregistered : ToldSince s.kvStore.revision
      (fun kv => ∃ x ∈ s.matched req.key req.rangeEnd, kv = x.2.kv) sid s.watchManager.nextWatchId
      (s.resumed req sid outcomes []) := by
    refine ⟨(h.withOutcomes sid outcomes).exec (.register req (some sid)), ?_, le_refl _, ?_⟩
    · exact given_register
    · intro r hr e he _ _
      obtain ⟨k, info, hk, hin, rfl⟩ := mem_received_register h hrev hr
      rw [List.mem_singleton.mp he]
      exact ⟨(k, info), mem_matched.mpr ⟨hk, hin⟩, rfl⟩
  have hinv := Run.invariant WatchAct.exec (fun _ a ht => ht.exec a) hregistered post
  exact hinv.told r hr e he htype hle

theorem resendsNothing_of_new (h : Watched s) (hrev : req.startRevision > 0)
    (hall : ∀ x ∈ s.matched req.key req.rangeEnd, req.startRevision ≤ x.2.modRevision) :
    ResendsNothing s req sid := by
  intro outcomes post r hr e he htype hle
  obtain ⟨x, hx, hkv⟩ := old_of_told h hrev outcomes post hr he htype hle
  rw [hkv, ← (h.dated.data x.1 x.2 (mem_matched.mp hx).1).mod]
  exact hall x hx

end Replayed

/-- **A resumed watch replays its range**, whatever revision it asks for. In any state that can
be reached, for a watcher that asks for history: the historical events are puts of the entries of
its range, each once, and all else that it is ever told of as put is put after its registration.
So the historical events are those from the revision on that is asked for, and it is never sent an
older write again, exactly when no entry of its range is older. -/
theorem resume_replays_range (env : Env) (acts : List WatchSystem.Action) (req : WatchCreateRequest)
    (hrev : req.startRevision > 0) (sid : StreamId) :
    let s := ((WatchSystem.start env).run acts).server
    (s.historicalEvents req sid).Perm
      ((s.matched req.key req.rangeEnd).map fun e => (.PUT, e.2.kv)) ∧
    (∀ outcomes post,
      ∀ r ∈ (s.resumed req sid outcomes post).received sid s.watchManager.nextWatchId,
        ∀ e ∈ r.events, e.type = .PUT → e.kv.modRevision ≤ s.kvStore.revision →
          ∃ x ∈ s.matched req.key req.rangeEnd, e.kv = x.2.kv) ∧
    (ReplaysNew s req sid ∧ ResendsNothing s req sid ↔
      ∀ k info, s.data k = some info → keyInRange k req.key req.rangeEnd = true →
        req.startRevision ≤ info.modRevision) := by
  intro s
  have h : Watched s := (WatchSystem.orderly_run env acts).watched
  have hentries : (∀ x ∈ s.matched req.key req.rangeEnd, req.startRevision ≤ x.2.modRevision) ↔
      ∀ k info, s.data k = some info → keyInRange k req.key req.rangeEnd = true →
        req.startRevision ≤ info.modRevision :=
    ⟨fun hall k info hk hr => hall (k, info) (mem_matched.mpr ⟨hk, hr⟩),
      fun hall x hx => hall x.1 x.2 (mem_matched.mp hx).1 (mem_matched.mp hx).2⟩
  refine ⟨historicalEvents_perm h hrev sid, ?_, ?_⟩
  · exact fun outcomes post r hr e he => old_of_told h hrev outcomes post hr he
  · rw [← hentries, ← replaysNew_iff h hrev sid]
    exact and_iff_left_of_imp fun hnew =>
      resendsNothing_of_new h hrev ((replaysNew_iff h hrev sid).mp hnew)

/-- A watch that asks for the events from the revision of the one key there is. -/
theorem resume_replays_one :
    let s := ((WatchSystem.start .plain).run [.atom (.kv (.put [107] [118] 0 none))]).server
    let req : WatchCreateRequest := { key := [107], startRevision := 2 }
    (s.historicalEvents req 0).Perm
      ((s.matched req.key req.rangeEnd).map fun e => (.PUT, e.2.kv)) ∧
    (∀ outcomes post, ∀ r ∈ (s.resumed req 0 outcomes post).received 0 s.watchManager.nextWatchId,
      ∀ e ∈ r.events, e.type = .PUT → e.kv.modRevision ≤ s.kvStore.revision →
        ∃ x ∈ s.matched req.key req.rangeEnd, e.kv = x.2.kv) ∧
    (ReplaysNew s req 0 ∧ ResendsNothing s req 0 ↔
      ∀ k info, s.data k = some info → keyInRange k req.key req.rangeEnd = true →
        req.startRevision ≤ info.modRevision) :=
  resume_replays_range .plain _ { key := [107], startRevision := 2 } (by decide) 0

/-- **A watch that asks for the events after the revision of a key** is sent the key again. -/
theorem resumed_again :
    let s := ((WatchSystem.start .plain).run [.atom (.kv (.put [107] [118] 0 none))]).server
    let req : WatchCreateRequest := { key := [107], startRevision := 3 }
    ¬ (ReplaysNew s req 0 ∧ ResendsNothing s req 0) := by
  rintro s req ⟨-, hnothing⟩
  have hsent : (s.resumed req 0 (fun _ => true) []).received 0 s.watchManager.nextWatchId =
      [historicalResponse (s.watchManager.makeWatcher req (some 0))
        { key := [107], value := [118], createRevision := 2, modRevision := 2, version := 1 }] := by
    decide
  have hnew := hnothing (fun _ => true) [] _ (by rw [hsent]; exact List.mem_singleton_self _) _
    (List.mem_singleton_self _) rfl (by decide)
  exact absurd hnew (by decide)

end EtcdLite
