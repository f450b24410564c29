import EtcdLite.Watch.Life
import EtcdLite.Watch.Replay
import Mathlib.Data.List.Flatten

/-!
# At most once

A put can reach a watcher in two ways: as a historical event, when the handler that registers
the watcher finds what it stored in the range, and as a live event, when it finds the watcher
in the registry. It never reaches it twice (`put_once`). The handler reads the range before it
inserts the watcher, and every key-value that it is still to send was in the store when it
read it; so each is older than any put that finds the watcher, and no two have the same key.
-/

namespace EtcdLite

open Server WatchManager

/-- The puts that events tell of, by key and revision. -/
def putsOf (events : List Event) : List (Bytes × Int) :=
  events.filterMap fun e => if e.type = .PUT then some (e.kv.key, e.kv.modRevision) else none

theorem putsOf_append (es es' : List Event) : putsOf (es ++ es') = putsOf es ++ putsOf es' :=
  List.filterMap_append

/-- No put is told of twice, and none is after a revision. -/
structure Once (R : Int) (puts : List (Bytes × Int)) : Prop where
  nodup : puts.Nodup
  le : ∀ p ∈ puts, p.2 ≤ R

theorem once_nil (R : Int) : Once R [] := ⟨List.nodup_nil, by simp⟩

theorem Once.mono {R R' : Int} {puts : List (Bytes × Int)} (h : Once R puts) (hR : R ≤ R') :
    Once R' puts := ⟨h.nodup, fun p hp => (h.le p hp).trans hR⟩

theorem Once.sublist {R : Int} {puts puts' : List (Bytes × Int)} (h : Once R puts)
    (hsub : puts'.Sublist puts) : Once R puts' :=
  ⟨h.nodup.sublist hsub, fun p hp => h.le p (hsub.subset hp)⟩

/-- A put at the next revision is a new one. -/
theorem Once.next {R : Int} {puts : List (Bytes × Int)} (h : Once R puts) (k : Bytes) :
    Once (R + 1) (puts ++ [(k, R + 1)]) where
  nodup := by
    refine List.nodup_append.mpr ⟨h.nodup, List.nodup_singleton _, ?_⟩
    rintro p hp _ hk rfl
    have hle := h.le p hp
    rw [List.mem_singleton.mp hk] at hle
    exact absurd hle (not_le.mpr (Int.lt_succ R))
  le p hp := by
    rcases List.mem_append.mp hp with hp | hp
    · exact (h.le p hp).trans (by omega)
    · rw [List.mem_singleton.mp hp]

/-- An operation notifies a watcher of one put at most, and that is at the next revision. -/
theorem putsOf_noticesTo (s : Server) (w : Watcher) (op : KvOp) : ∃ k,
    (putsOf ((op.noticesTo s w).flatMap WatchResponse.events)).Sublist
      [(k, s.kvStore.revision + 1)] := by
  cases op with
  | put key value lease prevKv =>
    refine ⟨key, ?_⟩
    rw [KvOp.noticesTo]
    split_ifs
    · exact .refl _
    · exact List.nil_sublist _
  | delete key rangeEnd prevKvs =>
    refine ⟨key, ?_⟩
    have hnil : putsOf (((KvOp.delete key rangeEnd prevKvs).noticesTo s w).flatMap
        WatchResponse.events) = [] := by
      rw [putsOf, List.filterMap_eq_nil_iff]
      intro e he
      obtain ⟨r, hr, he⟩ := List.mem_flatMap.mp he
      rw [KvOp.noticesTo] at hr
      split_ifs at hr
      · obtain ⟨x, -, rfl⟩ := List.mem_map.mp hr
        rw [List.mem_singleton.mp he]
        rfl
      · cases hr
    rw [hnil]
    exact List.nil_sublist _
  | txn compares success failure => exact ⟨[], List.nil_sublist _⟩

/-- The key-values of a range are of distinct keys, and none is after the current revision. -/
theorem once_history {s : Server} (h : s.Dated) (w : Watcher) : Once s.kvStore.revision
    ((WatchSystem.history s w).map fun kv => (kv.key, kv.modRevision)) := by
  rw [WatchSystem.history]
  split_ifs
  · have hperm := (s.kvStore.range_perm w.key w.rangeEnd).map fun kv => (kv.key, kv.modRevision)
    have hdated : ∀ e ∈ s.matched w.key w.rangeEnd, e.2.Dated s.kvStore.revision e.1 :=
      fun e he => h.data e.1 e.2 (UnorderedMap.mem_toList.mp (List.mem_filter.mp he).1)
    refine ⟨?_, fun p hp => ?_⟩
    · rw [hperm.nodup_iff, List.map_map]
      refine List.Nodup.of_map Prod.fst ?_
      have hkeys : ((s.matched w.key w.rangeEnd).map Prod.fst).Nodup :=
        (UnorderedMap.nodup_keys s.kvStore.data).sublist (List.filter_sublist.map Prod.fst)
      have hsame : ((s.matched w.key w.rangeEnd).map fun e => e.2.kv.key) =
          (s.matched w.key w.rangeEnd).map Prod.fst :=
        List.map_congr_left fun e he => (hdated e he).key
      rw [List.map_map]
      exact hsame ▸ hkeys
    · obtain ⟨kv, hkv, rfl⟩ := List.mem_map.mp (hperm.mem_iff.mp hp)
      obtain ⟨e, he, rfl⟩ := List.mem_map.mp hkv
      rw [← (hdated e he).mod]
      exact (hdated e he).mod_le
  · exact once_nil _

section Writes

variable {streams : Streams} {all : List (StreamId × WatchResponse)} {i : Int}

/-- Responses without events deliver nothing. -/
theorem delivered_of_no_events (h : ∀ e ∈ addressed all i, e.2.events = []) (sid : StreamId) :
    delivered (writeAll streams all) sid i = delivered streams sid i := by
  obtain ⟨l, hl, hcarried⟩ := carried_writeAll streams all sid i
  have hnil : l.flatMap WatchResponse.events = [] := by
    rw [List.flatMap_eq_nil_iff]
    intro r hr
    obtain ⟨e, he, rfl⟩ := List.mem_map.mp (hl.subset hr)
    exact h e (List.mem_filter.mp he).1
  rw [delivered_eq, hcarried, List.flatMap_append, hnil, List.append_nil, delivered_eq]

/-- Responses to one stream deliver nothing on another. -/
theorem delivered_of_other {sid sid' : StreamId} (hne : sid' ≠ sid) {rs : List WatchResponse}
    (hrs : addressed all i = rs.map fun r => (sid, r)) :
    delivered (writeAll streams all) sid' i = delivered streams sid' i := by
  rw [delivered_eq, carried_of_other hne hrs, delivered_eq]

/-- Responses to one stream deliver, on it, some of their events. -/
theorem delivered_writeAll_sublist (streams : Streams) {sid : StreamId} {rs : List WatchResponse}
    (hrs : addressed all i = rs.map fun r => (sid, r)) :
    ∃ es, es.Sublist (rs.flatMap WatchResponse.events) ∧
      delivered (writeAll streams all) sid i = delivered streams sid i ++ es := by
  obtain ⟨l, hl, hcarried⟩ := carried_writeAll_sublist streams hrs
  refine ⟨l.flatMap WatchResponse.events, hl.flatMap _, ?_⟩
  rw [delivered_eq, hcarried, List.flatMap_append, delivered_eq]

end Writes

/-- What an id has been delivered, at each point of its life, when the revision is `R`. -/
def PutsOnce (streams : Streams) (R : Int) (i : Int) : Life → Prop
  | .held sid (.sending _ kvs) => (∀ sid', sid' ≠ sid → delivered streams sid' i = []) ∧
    Once R (putsOf (delivered streams sid i) ++ kvs.map fun kv => (kv.key, kv.modRevision))
  | .unused | .held _ _ => ∀ sid, delivered streams sid i = []
  | .live w => ∃ sid, w.stream = some sid ∧ (∀ sid', sid' ≠ sid → delivered streams sid' i = []) ∧
    Once R (putsOf (delivered streams sid i))
  | .ended => ∃ sid, (∀ sid', sid' ≠ sid → delivered streams sid' i = []) ∧
    Once R (putsOf (delivered streams sid i))

/-- No put that is delivered, or is to be sent, is after the revision. -/
theorem PutsOnce.le {streams : Streams} {R i : Int} {l : Life} (h : PutsOnce streams R i l)
    {sid : StreamId} {e : Event} (he : e ∈ delivered streams sid i) (htype : e.type = .PUT) :
    e.kv.modRevision ≤ R := by
  have hput : ∀ sid₀, (∀ sid', sid' ≠ sid₀ → delivered streams sid' i = []) →
      (e.kv.key, e.kv.modRevision) ∈ putsOf (delivered streams sid₀ i) := by
    intro sid₀ hother
    by_cases hsid : sid = sid₀
    · exact List.mem_filterMap.mpr ⟨e, hsid ▸ he, if_pos htype⟩
    · rw [hother sid hsid] at he
      cases he
  have hnone : (∀ sid, delivered streams sid i = []) → e.kv.modRevision ≤ R := by
    intro hnone
    rw [hnone] at he
    cases he
  cases l with
  | unused => exact hnone h
  | live w =>
    obtain ⟨sid₀, -, hother, honce⟩ := h
    exact honce.le _ (hput sid₀ hother)
  | ended =>
    obtain ⟨sid₀, hother, honce⟩ := h
    exact honce.le _ (hput sid₀ hother)
  | held sid₀ hd =>
    cases hd with
    | sending w kvs =>
      obtain ⟨hother, honce⟩ := h
      exact honce.le _ (List.mem_append_left _ (hput sid₀ hother))
    | _ => exact hnone h

theorem PutsOnce.sending_le {streams : Streams} {R i : Int} {sid : StreamId} {w : Watcher}
    {kvs : List KeyValue} (h : PutsOnce streams R i (.held sid (.sending w kvs))) {kv : KeyValue}
    (hkv : kv ∈ kvs) : kv.modRevision ≤ R :=
  h.2.le (kv.key, kv.modRevision) (List.mem_append_right _ (List.mem_map.mpr ⟨kv, hkv, rfl⟩))

/-- It does not change when nothing is delivered. -/
theorem PutsOnce.congr {streams streams' : Streams} {R R' i : Int} {l : Life}
    (hsame : ∀ sid, delivered streams' sid i = delivered streams sid i) (hR : R ≤ R')
    (h : PutsOnce streams R i l) : PutsOnce streams' R' i l := by
  cases l with
  | unused => exact fun sid => (hsame sid).trans (h sid)
  | live w =>
    obtain ⟨sid, hsid, hother, honce⟩ := h
    refine ⟨sid, hsid, fun sid' hne => (hsame sid').trans (hother sid' hne), ?_⟩
    rw [hsame]
    exact honce.mono hR
  | ended =>
    obtain ⟨sid, hother, honce⟩ := h
    refine ⟨sid, fun sid' hne => (hsame sid').trans (hother sid' hne), ?_⟩
    rw [hsame]
    exact honce.mono hR
  | held sid hd =>
    cases hd with
    | sending w kvs =>
      obtain ⟨hother, honce⟩ := h
      refine ⟨fun sid' hne => (hsame sid').trans (hother sid' hne), ?_⟩
      rw [hsame]
      exact honce.mono hR
    | _ => exact fun sid' => (hsame sid').trans (h sid')

namespace WatchSystem

/-- **Each step delivers no put twice.** -/
theorem putsOnce_evolves {y : WatchSystem} {a : Action} {i : Int} {l l' : Life}
    {all : List (StreamId × WatchResponse)} (hy : Orderly y)
    (hall : (y.step a).server.streams = writeAll y.server.streams all)
    (he : Evolves y a i l (addressed all i) l')
    (h : PutsOnce y.server.streams y.server.kvStore.revision i l) :
    PutsOnce (y.step a).server.streams (y.step a).server.kvStore.revision i l' := by
  have hR : y.server.kvStore.revision ≤ (y.step a).server.kvStore.revision := revision_le_step y a
  generalize hws : addressed all i = ws at he
  -- Most steps deliver nothing.
  have hsame : (∀ e ∈ ws, e.2.events = []) → ∀ sid,
      delivered (y.step a).server.streams sid i = delivered y.server.streams sid i := by
    intro hevents
    rw [hall]
    exact delivered_of_no_events (hws ▸ hevents)
  cases he with
  | rest hl => exact h.congr (hsame (by simp)) hR
  | @notified w sid op ha hsid =>
    obtain ⟨sid', hsid', hother, honce⟩ := h
    obtain rfl : sid = sid' := Option.some.inj (hsid.symm.trans hsid')
    obtain ⟨es, hes, hdelivered⟩ := delivered_writeAll_sublist y.server.streams hws
    have hnext : (y.step a).server.kvStore.revision = y.server.kvStore.revision + 1 := by
      rw [ha]
      exact exec_revision y.server op
    obtain ⟨k, hk⟩ := putsOf_noticesTo y.server w op
    refine ⟨sid, hsid, fun sid' hne => ?_, ?_⟩
    · rw [hall, delivered_of_other hne hws, hother sid' hne]
    · rw [hnext, hall, hdelivered, putsOf_append]
      exact (honce.next k).sublist ((List.Sublist.refl _).append ((hes.filterMap _).trans hk))
  | @canceled w sid sid'' ha hsid =>
    obtain ⟨sid', -, hother, honce⟩ := h.congr (hsame (by simp [canceledResponse])) hR
    exact ⟨sid', hother, honce⟩
  | numbered ha => exact fun sid' => (hsame (by simp) sid').trans (h sid')
  | stamped ha => exact fun sid' => (hsame (by simp) sid').trans (h sid')
  | created ha hok hz => exact fun sid' => (hsame (by simp [createdAt]) sid').trans (h sid')
  | failed ha hfail hz => exact fun sid' => (hsame (by simp [createdAt]) sid').trans (h sid')
  | @collected sid w ha =>
    have hnone : ∀ sid', delivered (y.step a).server.streams sid' i = [] :=
      fun sid' => (hsame (by simp) sid').trans (h sid')
    refine ⟨fun sid' _ => hnone sid', ?_⟩
    rw [hnone]
    exact (once_history hy.watched.dated w).mono hR
  | @sent sid w kv kvs ha =>
    obtain ⟨hother, honce⟩ := h
    have hrs : addressed all i = [historicalResponse w kv].map fun r => (sid, r) := hws
    obtain ⟨es, hes, hdelivered⟩ := delivered_writeAll_sublist y.server.streams hrs
    refine ⟨fun sid' hne => ?_, ?_⟩
    · rw [hall, delivered_of_other hne hrs, hother sid' hne]
    · rw [hall, hdelivered, putsOf_append, List.append_assoc]
      refine (honce.mono hR).sublist ((List.Sublist.refl _).append ?_)
      exact (hes.filterMap _).append (List.Sublist.refl _)
  | @inserted sid w ha hsid =>
    obtain ⟨hother, honce⟩ := PutsOnce.congr (l := .held sid (.sending w [])) (hsame (by simp)) hR h
    rw [List.map_nil, List.append_nil] at honce
    exact ⟨sid, hsid, hother, honce⟩
  | filled ha => exact fun sid' => (hsame (by simp) sid').trans (h sid')
  | @refused sid header ha =>
    have hnone : ∀ sid', delivered (y.step a).server.streams sid' i = [] :=
      fun sid' => (hsame (by simp [WatchService.failedResponse]) sid').trans (h sid')
    refine ⟨sid, fun sid' _ => hnone sid', ?_⟩
    rw [hnone]
    exact once_nil _

/-- What an id has been delivered after any run. -/
theorem putsOnce_run (env : Env) (acts : List Action) (i : Int) :
    ∃ l, ((start env).run acts).HasLife i l ∧ PutsOnce ((start env).run acts).server.streams
      ((start env).run acts).server.kvStore.revision i l := by
  refine life_run (C := fun _ _ => True)
    (P := fun y l => PutsOnce y.server.streams y.server.kvStore.revision i l)
    (fun y a l l' hy _ _ he h => putsOnce_evolves hy (step_streams hy a) he h) (orderly_start env) ?_
    (Run.along_of_forall WatchSystem.step (fun _ _ => trivial) _ acts)
  obtain ⟨l, hl, rfl | rfl⟩ := exists_life_start env i
  · exact ⟨.unused, hl, fun sid => rfl⟩
  · exact ⟨.ended, hl, 0, fun sid _ => rfl, once_nil _⟩

/-- **A put is delivered at most once.** However registrations and cancellations on any number
of streams are interleaved with the operations of the store, and whatever becomes of the
writes: what is delivered to a watcher is on one stream, and no two of its `PUT` events have the
same key and revision. -/
theorem put_once (env : Env) (acts : List Action) (i : Int) :
    ∃ sid, (∀ sid', sid' ≠ sid → delivered ((start env).run acts).server.streams sid' i = []) ∧
      (putsOf (delivered ((start env).run acts).server.streams sid i)).Nodup := by
  obtain ⟨l, -, honce⟩ := putsOnce_run env acts i
  have hnone : (∀ sid, delivered ((start env).run acts).server.streams sid i = []) →
      ∃ sid, (∀ sid', sid' ≠ sid → delivered ((start env).run acts).server.streams sid' i = []) ∧
        (putsOf (delivered ((start env).run acts).server.streams sid i)).Nodup := by
    intro hnone
    refine ⟨0, fun sid' _ => hnone sid', ?_⟩
    rw [hnone]
    exact List.nodup_nil
  cases l with
  | unused => exact hnone honce
  | live w =>
    obtain ⟨sid, -, hother, honce⟩ := honce
    exact ⟨sid, hother, honce.nodup⟩
  | ended =>
    obtain ⟨sid, hother, honce⟩ := honce
    exact ⟨sid, hother, honce.nodup⟩
  | held sid hd =>
    cases hd with
    | sending w kvs =>
      obtain ⟨hother, honce⟩ := honce
      exact ⟨sid, hother, (honce.sublist (List.sublist_append_left _ _)).nodup⟩
    | _ => exact hnone honce

end WatchSystem

end EtcdLite
