import EtcdLite.Watch.Once
import EtcdLite.Watch.Protocol

/-!
# The gap at a registration

A registration announces a revision in its created response, and inserts its watcher later. A
put between the two is after the revision announced, but finds no watcher to notify. If the
request asks for history, a put before the handler reads the range is delivered all the same,
as a historical event; a put after that, and any put if it does not, is lost. So a put after
the revision announced is delivered exactly when the watcher listens at the put
(`put_delivered_iff`): it is in the registry, or its handler has still to read the range.
-/

namespace EtcdLite

open Server WatchManager

/-- The watcher whose range is still to be read. -/
def Handler.unread? : Handler → Option Watcher
  | .numbered w | .stamped w _ | .created w => some w
  | .closed | .reading | .sending _ _ | .failed _ | .refusing _ _ | .returned => none

section Writes

variable {streams : Streams} {all : List (StreamId × WatchResponse)} {sid : StreamId} {i : Int}

/-- What a stream carries for an id was there before, or has been written. -/
theorem mem_carried_writeAll {r : WatchResponse} (hr : r ∈ carried (writeAll streams all) sid i) :
    r ∈ carried streams sid i ∨ (sid, r) ∈ addressed all i := by
  obtain ⟨l, hl, hcarried⟩ := carried_writeAll streams all sid i
  rw [hcarried] at hr
  rcases List.mem_append.mp hr with hr | hr
  · exact .inl hr
  · obtain ⟨⟨sid', r'⟩, he, rfl⟩ := List.mem_map.mp (hl.subset hr)
    obtain ⟨hmem, hsid⟩ := List.mem_filter.mp he
    obtain rfl : sid' = sid := of_decide_eq_true hsid
    exact .inr hmem

theorem mem_delivered_writeAll {e : Event} (he : e ∈ delivered (writeAll streams all) sid i) :
    e ∈ delivered streams sid i ∨ ∃ r, (sid, r) ∈ addressed all i ∧ e ∈ r.events := by
  obtain ⟨r, hr, her⟩ := List.mem_flatMap.mp he
  rcases mem_carried_writeAll hr with hr | hr
  · exact .inl (List.mem_flatMap.mpr ⟨r, hr, her⟩)
  · exact .inr ⟨r, hr, her⟩

/-- What has been delivered stays so. -/
theorem mem_delivered_mono {e : Event} (he : e ∈ delivered streams sid i) :
    e ∈ delivered (writeAll streams all) sid i := by
  obtain ⟨l, -, hcarried⟩ := carried_writeAll streams all sid i
  rw [delivered_eq, hcarried, List.flatMap_append]
  exact List.mem_append_left _ he

/-- A stream that takes every write delivers the events written to it. -/
theorem mem_delivered_of_writable {e : Event} {r : WatchResponse} (h : Writable streams sid)
    (hr : (sid, r) ∈ addressed all i) (he : e ∈ r.events) :
    e ∈ delivered (writeAll streams all) sid i := by
  rw [delivered_eq, carried_writeAll_of_writable h, List.flatMap_append]
  refine List.mem_append_right _ (List.mem_flatMap.mpr ⟨r, ?_, he⟩)
  exact List.mem_map.mpr ⟨(sid, r), List.mem_filter.mpr ⟨hr, by simp⟩, rfl⟩

end Writes

namespace WatchSystem

/-! ### The watcher -/

/-- The watcher of an id that has been given out. -/
def Keeps (ow : Option Watcher) : Life → Prop
  | .unused => False
  | .held _ h => ∀ w, h.watcher? = some w → ow = some w
  | .live w => ow = some w
  | .ended => True

theorem keeps_evolves {y : WatchSystem} {a : Action} {i : Int} {l l' : Life}
    {ws : List (StreamId × WatchResponse)} {ow : Option Watcher} (he : Evolves y a i l ws l')
    (h : Keeps ow l) : Keeps ow l' := by
  cases he with
  | rest hl => exact h
  | notified ha hsid => exact h
  | canceled ha hsid => trivial
  | numbered ha => exact h.elim
  | stamped ha => exact h
  | created ha hok hz => exact h
  | failed ha hfail hz => exact nofun
  | collected ha => exact h
  | sent ha => exact h
  | inserted ha hsid => exact h _ rfl
  | filled ha => exact nofun
  | refused ha => trivial

/-- A watcher that is in the registry after a run is the one that its id had before. -/
theorem keeps_run {y : WatchSystem} (hy : Orderly y) {i : Int} {l : Life} (hl : y.HasLife i l)
    (hused : l ≠ .unused) {acts : List Action} {w : Watcher}
    (hw : (y.run acts).server.watchManager.watchers.find? i = some w) :
    l = .live w ∨ ∃ sid h, l = .held sid h ∧ h.watcher? = some w := by
  have hkeeps : ∀ ow, Keeps ow l → ow = some w := by
    intro ow how
    obtain ⟨l', hl', hk⟩ := life_run (C := fun _ _ => True) (P := fun _ l => Keeps ow l)
      (fun y a l l' _ _ _ he h => keeps_evolves he h) hy ⟨l, hl, how⟩
      (Run.along_of_forall WatchSystem.step (fun _ _ => trivial) y acts)
    have hyz : Orderly (y.run acts) := Run.invariant WatchSystem.step (fun _ a h => h.step a) hy acts
    obtain rfl := live_unique hyz hw hl'
    exact hk
  cases l with
  | unused => exact absurd rfl hused
  | held sid h =>
    have hh : h.watcher? = some w := hkeeps h.watcher? fun w' hw' => hw'
    exact .inr ⟨sid, h, rfl, hh⟩
  | live w' =>
    obtain rfl : w' = w := Option.some.inj (hkeeps (some w') rfl)
    exact .inl rfl
  | ended => cases hkeeps none trivial

/-! ### The announcement -/

/-- Nothing carries an id before its created response is written. -/
def Unspoken (y : WatchSystem) (i : Int) : Life → Prop
  | .unused | .held _ (.numbered _) | .held _ (.stamped _ _) =>
    ∀ sid, carried y.server.streams sid i = []
  | .held _ _ | .live _ | .ended => True

theorem unspoken_evolves {y : WatchSystem} {a : Action} {i : Int} {l l' : Life}
    {all : List (StreamId × WatchResponse)}
    (hall : (y.step a).server.streams = writeAll y.server.streams all)
    (he : Evolves y a i l (addressed all i) l') (h : Unspoken y i l) : Unspoken (y.step a) i l' := by
  generalize hws : addressed all i = ws at he
  have hsame : ws = [] → ∀ sid,
      carried (y.step a).server.streams sid i = carried y.server.streams sid i := by
    intro hnil
    rw [hall]
    exact carried_of_addressed_nil (hws.trans hnil)
  cases he with
  | rest hl =>
    cases l with
    | unused => exact fun sid => (hsame rfl sid).trans (h sid)
    | held sid hd =>
      cases hd with
      | numbered w => exact fun sid' => (hsame rfl sid').trans (h sid')
      | stamped w revision => exact fun sid' => (hsame rfl sid').trans (h sid')
      | _ => trivial
    | live w => trivial
    | ended => trivial
  | numbered ha => exact fun sid => (hsame rfl sid).trans (h sid)
  | stamped ha => exact fun sid => (hsame rfl sid).trans (h sid)
  | _ => trivial

theorem unspoken_run (env : Env) (acts : List Action) (i : Int) :
    ∃ l, ((start env).run acts).HasLife i l ∧ Unspoken ((start env).run acts) i l := by
  refine life_run (C := fun _ _ => True) (P := fun y l => Unspoken y i l)
    (fun y a l l' hy _ _ he h => unspoken_evolves (step_streams hy a) he h) (orderly_start env) ?_
    (Run.along_of_forall WatchSystem.step (fun _ _ => trivial) _ acts)
  obtain ⟨l, hl, rfl | rfl⟩ := exists_life_start env i
  · exact ⟨.unused, hl, fun sid => rfl⟩
  · exact ⟨.ended, hl, trivial⟩

/-- A response that is written in a step of a life is a notification of the watcher, a historical
event, its created response, or one without events that announces nothing. -/
theorem Evolves.response {y : WatchSystem} {a : Action} {i : Int} {l l' : Life}
    {ws : List (StreamId × WatchResponse)} (he : Evolves y a i l ws l') {sid : StreamId}
    {r : WatchResponse} (hr : (sid, r) ∈ ws) :
    (∃ w, ∃ op : KvOp, r ∈ op.noticesTo y.server w) ∨
      (∃ w kv kvs, l = .held sid (.sending w (kv :: kvs)) ∧ r = historicalResponse w kv) ∨
      (∃ w revision, l = .held sid (.stamped w revision) ∧ r = createdAt w revision) ∨
      (r.events = [] ∧ r.created = false) := by
  cases he with
  | @notified w sid' op ha hsid =>
    obtain ⟨r', hr', heq⟩ := List.mem_map.mp hr
    obtain ⟨-, rfl⟩ := Prod.mk.inj heq
    exact .inl ⟨w, op, hr'⟩
  | @sent sid' w kv kvs ha =>
    obtain ⟨rfl, rfl⟩ := Prod.mk.inj (List.mem_singleton.mp hr)
    exact .inr (.inl ⟨w, kv, kvs, rfl, rfl⟩)
  | @created sid' w revision ha hok hz =>
    obtain ⟨rfl, rfl⟩ := Prod.mk.inj (List.mem_singleton.mp hr)
    exact .inr (.inr (.inl ⟨w, revision, rfl, rfl⟩))
  | @failed sid' w revision ha hfail hz =>
    obtain ⟨rfl, rfl⟩ := Prod.mk.inj (List.mem_singleton.mp hr)
    exact .inr (.inr (.inl ⟨w, revision, rfl, rfl⟩))
  | @canceled w sid' sid'' ha hsid =>
    obtain ⟨-, rfl⟩ := Prod.mk.inj (List.mem_singleton.mp hr)
    exact .inr (.inr (.inr ⟨rfl, rfl⟩))
  | @refused sid' header ha =>
    obtain ⟨-, rfl⟩ := Prod.mk.inj (List.mem_singleton.mp hr)
    exact .inr (.inr (.inr ⟨rfl, rfl⟩))
  | _ => cases hr

/-- No revision below `R` has been announced for an id, and none will be. -/
structure Late (R : Int) (y : WatchSystem) (i : Int) (l : Life) : Prop where
  revision : R ≤ y.server.kvStore.revision
  announced : ∀ sid, ∀ r ∈ carried y.server.streams sid i, r.created = true → R ≤ r.header.revision
  stamped : ∀ sid w revision, l = .held sid (.stamped w revision) → R ≤ revision

theorem late_evolves {y : WatchSystem} {a : Action} {i R : Int} {l l' : Life}
    {all : List (StreamId × WatchResponse)}
    (hall : (y.step a).server.streams = writeAll y.server.streams all)
    (he : Evolves y a i l (addressed all i) l') (h : Late R y i l) : Late R (y.step a) i l' where
  revision := h.revision.trans (revision_le_step y a)
  announced := by
    intro sid r hr hcreated
    rw [hall] at hr
    rcases mem_carried_writeAll hr with hr | hr
    · exact h.announced sid r hr hcreated
    rcases he.response hr with ⟨w, op, hnotice⟩ | ⟨w, kv, kvs, -, rfl⟩ |
      ⟨w, revision, rfl, rfl⟩ | ⟨-, hnot⟩
    · cases (noticesTo_isEvents r hnotice).1.symm.trans hcreated
    · cases hcreated
    · exact h.stamped sid w revision rfl
    · cases hnot.symm.trans hcreated
  stamped := by
    rintro sid w revision rfl
    generalize addressed all i = ws at he
    cases he with
    | rest hl => exact h.stamped sid w revision rfl
    | stamped ha => exact h.revision

/-! ### A put that is delivered -/

/-- The put of an entry has been delivered. -/
def Has (info : KeyInfo) (sid : StreamId) (y : WatchSystem) (i : Int) : Prop :=
  ∃ e ∈ delivered y.server.streams sid i, e.type = .PUT ∧ e.kv = info.kv

/-- The put of an entry has been delivered on the stream of the watcher, or is to be delivered
as a historical event. -/
def Due (info : KeyInfo) (sid : StreamId) (y : WatchSystem) (i : Int) : Life → Prop
  | .held _ (.numbered w) | .held _ (.stamped w _) | .held _ (.created w) =>
    w.startRevision > 0 ∧ keyInRange info.kv.key w.key w.rangeEnd = true
  | .held sid' (.sending _ kvs) => sid' = sid → Has info sid y i ∨ info.kv ∈ kvs
  | .live w => w.stream = some sid → Has info sid y i
  | .unused => False
  | .held _ _ | .ended => True

/-- The handler reads the range of a watcher that asks for history. -/
def ReadsRange (y : WatchSystem) (i : Int) (a : Action) : Prop :=
  ∃ sid w, a = .resume sid ∧ y.handlers sid = .created w ∧ w.watchId = i ∧ w.startRevision > 0

/-- The store has an entry if, in this step, the handler reads the range. -/
def Kept (info : KeyInfo) (i : Int) (y : WatchSystem) (a : Action) : Prop :=
  y.ReadsRange i a → y.server.data info.kv.key = some info

theorem Has.mono {info : KeyInfo} {sid : StreamId} {y z : WatchSystem} {i : Int}
    {all : List (StreamId × WatchResponse)} (hall : z.server.streams = writeAll y.server.streams all)
    (h : Has info sid y i) : Has info sid z i := by
  obtain ⟨e, he, htype, hkv⟩ := h
  refine ⟨e, ?_, htype, hkv⟩
  rw [hall]
  exact mem_delivered_mono he

theorem due_evolves {y : WatchSystem} {a : Action} {i : Int} {info : KeyInfo} {sid : StreamId}
    {l l' : Life} {all : List (StreamId × WatchResponse)} (hl : y.HasLife i l)
    (hkept : y.Kept info i a) (hwr : Writable y.server.streams sid)
    (hall : (y.step a).server.streams = writeAll y.server.streams all)
    (he : Evolves y a i l (addressed all i) l') (h : Due info sid y i l) :
    Due info sid (y.step a) i l' := by
  generalize hws : addressed all i = ws at he
  cases he with
  | rest hl' =>
    cases l with
    | unused => exact h
    | live w => exact fun hsid => (h hsid).mono hall
    | ended => trivial
    | held sid' hd =>
      cases hd with
      | sending w kvs => exact fun hsid => (h hsid).imp (Has.mono hall) id
      | numbered w => exact h
      | stamped w revision => exact h
      | created w => exact h
      | _ => trivial
  | notified ha hsid => exact fun hsid => (h hsid).mono hall
  | canceled ha hsid => trivial
  | numbered ha => exact h.elim
  | stamped ha => exact h
  | created ha hok hz => exact h
  | failed ha hfail hz => trivial
  | @collected sid' w ha =>
    obtain ⟨hrev, hk⟩ := h
    obtain ⟨hy, hid⟩ := hl
    have hinfo := hkept ⟨sid', w, ha, hy, Option.some.inj hid, hrev⟩
    exact fun _ => .inr (mem_history.mpr ⟨hrev, _, info, hinfo, hk, rfl⟩)
  | @sent sid' w kv kvs ha =>
    rintro rfl
    rcases h rfl with hhas | hmem
    · exact .inl (hhas.mono hall)
    rcases List.mem_cons.mp hmem with hkv | hmem
    · left
      refine ⟨{ type := .PUT, kv := kv }, ?_, rfl, hkv.symm⟩
      rw [hall]
      have hr : (sid', historicalResponse w kv) ∈ addressed all i := by
        rw [hws]
        exact List.mem_singleton_self _
      exact mem_delivered_of_writable hwr hr (List.mem_singleton_self _)
    · exact .inr hmem
  | @inserted sid' w ha hsid =>
    intro hsid'
    obtain rfl : sid' = sid := Option.some.inj (hsid.symm.trans hsid')
    rcases h rfl with hhas | hmem
    · exact hhas.mono hall
    · cases hmem
  | filled ha => trivial
  | refused ha => trivial

/-! ### A put that is lost -/

/-- No put at revision `R` has been delivered to an id, and none will be. -/
structure Missed (R : Int) (sid : StreamId) (y : WatchSystem) (i : Int) (l : Life) : Prop where
  used : l ≠ .unused
  revision : R ≤ y.server.kvStore.revision
  delivered : ∀ e ∈ delivered y.server.streams sid i, e.type = .PUT → e.kv.modRevision ≠ R
  unread : ∀ sid' h w, l = .held sid' h → h.unread? = some w → w.startRevision ≤ 0
  sending : ∀ sid' w kvs, l = .held sid' (.sending w kvs) → ∀ kv ∈ kvs, kv.modRevision ≠ R

theorem missed_evolves {y : WatchSystem} {a : Action} {i R : Int} {sid : StreamId} {l l' : Life}
    {all : List (StreamId × WatchResponse)}
    (hall : (y.step a).server.streams = writeAll y.server.streams all)
    (he : Evolves y a i l (addressed all i) l') (h : Missed R sid y i l) :
    Missed R sid (y.step a) i l' where
  used := by
    rintro rfl
    generalize addressed all i = ws at he
    cases he with
    | rest hl => exact h.used rfl
  revision := h.revision.trans (revision_le_step y a)
  delivered := by
    intro e hmem htype
    rw [hall] at hmem
    rcases mem_delivered_writeAll hmem with hold | ⟨r, hr, her⟩
    · exact h.delivered e hold htype
    rcases he.response hr with ⟨w, op, hnotice⟩ | ⟨w, kv, kvs, rfl, rfl⟩ |
      ⟨w, revision, -, rfl⟩ | ⟨hnone, -⟩
    · -- A new put is at a later revision.
      obtain ⟨k, hk⟩ := putsOf_noticesTo y.server w op
      have hput : (e.kv.key, e.kv.modRevision) ∈
          putsOf ((op.noticesTo y.server w).flatMap WatchResponse.events) :=
        List.mem_filterMap.mpr ⟨e, List.mem_flatMap.mpr ⟨r, hnotice, her⟩, if_pos htype⟩
      obtain ⟨-, hmod⟩ := Prod.mk.inj (List.mem_singleton.mp (hk.subset hput))
      have hle := h.revision
      omega
    · rw [List.mem_singleton.mp her]
      exact h.sending sid w _ rfl kv List.mem_cons_self
    · cases her
    · rw [hnone] at her
      cases her
  unread := by
    rintro sid' h' w rfl hw
    generalize addressed all i = ws at he
    cases he with
    | rest hl => exact h.unread sid' h' w rfl hw
    | numbered ha => exact absurd rfl h.used
    | stamped ha => exact h.unread _ _ w rfl hw
    | created ha hok hz => exact h.unread _ _ w rfl hw
    | _ => cases hw
  sending := by
    rintro sid' w kvs rfl kv hkv
    generalize addressed all i = ws at he
    cases he with
    | rest hl => exact h.sending sid' w kvs rfl kv hkv
    | collected ha =>
      have hrev := h.unread _ _ w rfl rfl
      rw [history, if_neg (not_lt.mpr hrev)] at hkv
      cases hkv
    | sent ha => exact h.sending _ w _ rfl kv (List.mem_cons_of_mem _ hkv)

/-! ### A put -/

/-- The watcher listens: it is in the registry, or it asks for history and its range has still
to be read. -/
def Listening (y : WatchSystem) (i : Int) : Prop :=
  (y.server.watchManager.watchers.find? i).isSome ∨
    ∃ sid w, (y.handlers sid).unread? = some w ∧ w.watchId = i ∧ w.startRevision > 0

/-- A put notifies the watcher if it is in the registry, and is nothing to it otherwise. -/
theorem put_evolves {y : WatchSystem} (h : Orderly y) {i : Int} {l : Life} (hl : y.HasLife i l)
    (op : KvOp) : (y.step (.atom (.kv op))).HasLife i l ∧
      ((∃ w sid, l = .live w ∧ w.stream = some sid ∧ addressed (y.writes (.atom (.kv op))) i =
          (op.noticesTo y.server w).map fun r => (sid, r)) ∨
        ((∀ w, l ≠ .live w) ∧ addressed (y.writes (.atom (.kv op))) i = [])) := by
  obtain ⟨l', hl', he⟩ := life_step h hl (.atom (.kv op))
  generalize hws : addressed (y.writes (.atom (.kv op))) i = ws at he
  cases he with
  | rest hrest => exact ⟨hl', .inr ⟨fun w hw => hrest w op hw rfl, rfl⟩⟩
  | @notified w sid op' ha hsid =>
    obtain rfl : op = op' := Atom.kv.inj (Action.atom.inj ha)
    exact ⟨hl', .inl ⟨w, sid, rfl, hsid, rfl⟩⟩
  | canceled ha hsid => cases ha
  | numbered ha => cases ha
  | stamped ha => cases ha
  | created ha hok hz => cases ha
  | failed ha hfail hz => cases ha
  | collected ha => cases ha
  | sent ha => cases ha
  | inserted ha hsid => cases ha
  | filled ha => cases ha
  | refused ha => cases ha

/-- A put that is made before the revision is read is announced. -/
theorem late_put {y : WatchSystem} (h : Orderly y) {i : Int} {l : Life} (hl : y.HasLife i l)
    (hunspoken : Unspoken y i l) (op : KvOp) (hfirst : l = .unused ∨ ∃ sid w, l = .held sid (.numbered w)) :
    Late (y.server.kvStore.revision + 1) (y.step (.atom (.kv op))) i l := by
  obtain ⟨-, hput⟩ := put_evolves h hl op
  have hall := step_streams h (.atom (.kv op))
  have hnil : addressed (y.writes (.atom (.kv op))) i = [] := by
    rcases hput with ⟨w, sid, rfl, -⟩ | ⟨-, hnil⟩
    · rcases hfirst with hfirst | ⟨sid, w, hfirst⟩ <;> cases hfirst
    · exact hnil
  have hnone : ∀ sid, carried y.server.streams sid i = [] := by
    rcases hfirst with rfl | ⟨sid, w, rfl⟩ <;> exact hunspoken
  refine ⟨(exec_revision y.server op).ge, ?_, ?_⟩
  · intro sid r hr
    rw [hall, carried_of_addressed_nil hnil, hnone] at hr
    cases hr
  · rintro sid w revision rfl
    rcases hfirst with hfirst | ⟨sid', w', hfirst⟩ <;> cases hfirst

/-- A put that a watcher does not listen to is missed. -/
theorem missed_put {y : WatchSystem} (h : Orderly y) {i : Int} {l : Life} (hl : y.HasLife i l)
    (honce : PutsOnce y.server.streams y.server.kvStore.revision i l) (hused : l ≠ .unused)
    (op : KvOp) (hnot : ¬ y.Listening i) (sid : StreamId) :
    Missed (y.server.kvStore.revision + 1) sid (y.step (.atom (.kv op))) i l := by
  obtain ⟨-, hput⟩ := put_evolves h hl op
  have hall := step_streams h (.atom (.kv op))
  have hnil : addressed (y.writes (.atom (.kv op))) i = [] := by
    rcases hput with ⟨w, sid, rfl, -⟩ | ⟨-, hnil⟩
    · refine absurd (.inl ?_) hnot
      rw [show y.server.watchManager.watchers.find? i = some w from hl]
      rfl
    · exact hnil
  refine ⟨hused, (exec_revision y.server op).ge, ?_, ?_, ?_⟩
  · intro e he htype
    rw [hall, delivered_of_no_events (by simp [hnil])] at he
    have hle := honce.le he htype
    omega
  · rintro sid' h' w rfl hw
    obtain ⟨rfl, hid⟩ := hl
    by_contra hrev
    refine hnot (.inr ⟨sid', w, hw, ?_, not_le.mp hrev⟩)
    cases hd : y.handlers sid' <;> simp_all [Handler.unread?, Handler.watchId?]
  · rintro sid' w kvs rfl kv hkv
    have hle := honce.sending_le hkv
    omega

/-- A put that a watcher listens to is due. -/
theorem due_put {y : WatchSystem} (h : Orderly y) {i : Int} {l : Life} (hl : y.HasLife i l)
    {w : Watcher} {k value : Bytes} {lease : Int} {prevKv : Option KeyValue} {sid : StreamId}
    (hw : l = .live w ∨ ∃ sid h, l = .held sid h ∧ h.watcher? = some w)
    (hsid : w.stream = some sid) (hk : keyInRange k w.key w.rangeEnd = true)
    (hwr : Writable y.server.streams sid) (hlistening : y.Listening i) :
    Due (putInfo (y.server.data k) k value lease (y.server.kvStore.revision + 1)) sid
      (y.step (.atom (.kv (.put k value lease prevKv)))) i l := by
  obtain ⟨-, hput⟩ := put_evolves h hl (.put k value lease prevKv)
  have hall := step_streams h (.atom (.kv (.put k value lease prevKv)))
  rcases hw with rfl | ⟨sid', h', rfl, hw⟩
  · intro _
    rcases hput with ⟨w', sid', hw', hsid', haddressed⟩ | ⟨hno, -⟩
    · obtain rfl : w = w' := Life.live.inj hw'
      obtain rfl : sid = sid' := Option.some.inj (hsid.symm.trans hsid')
      rw [KvOp.noticesTo, if_pos ((keyMatchesWatcher_eq k w).trans hk)] at haddressed
      have hr : (sid, putResponse w
          (putInfo (y.server.data k) k value lease (y.server.kvStore.revision + 1)).kv
          ((y.server.data k).map KeyInfo.kv) (y.server.kvStore.revision + 1)) ∈
            addressed (y.writes (.atom (.kv (.put k value lease prevKv)))) i := by
        rw [haddressed]
        exact List.mem_singleton_self _
      rw [Has, hall]
      exact ⟨_, mem_delivered_of_writable hwr hr (List.mem_singleton_self _), rfl, rfl⟩
    · exact absurd rfl (hno w)
  · obtain ⟨rfl, hid⟩ := hl
    -- The id is not in the registry, so its range has still to be read.
    have hunread : ∃ w', (y.handlers sid').unread? = some w' ∧ w'.startRevision > 0 := by
      rcases hlistening with hlive | ⟨sid'', w', hw', hid', hrev⟩
      · rw [(h.given sid' i hid).2] at hlive
        cases hlive
      · have hid'' : (y.handlers sid'').watchId? = some i := by
          cases hd : y.handlers sid'' <;> simp_all [Handler.unread?, Handler.watchId?]
        obtain rfl := h.distinct sid'' sid' i hid'' hid
        exact ⟨w', hw', hrev⟩
    obtain ⟨w', hw', hrev⟩ := hunread
    cases hd : y.handlers sid' with
    | numbered w'' =>
      rw [hd] at hw hw'
      obtain rfl : w'' = w := Option.some.inj hw
      obtain rfl : w'' = w' := Option.some.inj hw'
      exact ⟨hrev, hk⟩
    | stamped w'' revision =>
      rw [hd] at hw hw'
      obtain rfl : w'' = w := Option.some.inj hw
      obtain rfl : w'' = w' := Option.some.inj hw'
      exact ⟨hrev, hk⟩
    | created w'' =>
      rw [hd] at hw hw'
      obtain rfl : w'' = w := Option.some.inj hw
      obtain rfl : w'' = w' := Option.some.inj hw'
      exact ⟨hrev, hk⟩
    | sending w'' kvs =>
      rw [hd] at hw'
      cases hw'
    | _ => trivial

/-- **A put after the revision announced is delivered exactly when the watcher listens.** In any
run, for a watcher that is registered at the end, on a stream that takes every write, and a
put of a key of its range, after the revision that its created response announces: if the key
has not been written again when the historical range is read, then the put is delivered to the
watcher if and only if, at the put, the watcher is in the registry, or it asks for history and
its range has still to be read. -/
theorem put_delivered_iff {env : Env} {sid : StreamId} (hwr : ∀ n, env.outcomes sid n = true)
    (before after : List Action) (k value : Bytes) (lease : Int) (prevKv : Option KeyValue)
    (i : Int) (w : Watcher) :
    let y := (start env).run before
    let info := putInfo (y.server.data k) k value lease (y.server.kvStore.revision + 1)
    let y' := y.step (.atom (.kv (.put k value lease prevKv)))
    let z := y'.run after
    z.server.watchManager.watchers.find? i = some w → w.stream = some sid →
    keyInRange k w.key w.rangeEnd = true →
    (∃ r ∈ carried z.server.streams sid i, r.created = true ∧ r.header.revision < info.modRevision) →
    Run.Along WatchSystem.step (Kept info i) y' after →
    ((∃ e ∈ delivered z.server.streams sid i, e.type = .PUT ∧ e.kv = info.kv) ↔ y.Listening i) := by
  intro y info y' z hw hsid hk hannounced hkept
  have hy : Orderly y := orderly_run env before
  have hy' : Orderly y' := hy.step _
  have hz : Orderly z := Run.invariant WatchSystem.step (fun _ a h => h.step a) hy' after
  have hwritable : ∀ acts, Writable ((start env).run acts).server.streams sid := writable_run hwr
  obtain ⟨l, hl, honce⟩ := putsOnce_run env before i
  obtain ⟨l₀, hl₀, hunspoken⟩ := unspoken_run env before i
  obtain rfl := life_unique hy hl₀ hl
  obtain ⟨hl', -⟩ := put_evolves hy hl (.put k value lease prevKv)
  -- The revision announced is before the put, so the handler has read it.
  have hread : ¬ (l₀ = .unused ∨ ∃ sid w, l₀ = .held sid (.numbered w)) := by
    intro hfirst
    obtain ⟨l', -, hlate⟩ := life_run (C := fun _ _ => True)
      (P := fun y l => Late (info.modRevision) y i l)
      (fun y a l l' hy _ _ he h => late_evolves (step_streams hy a) he h) hy'
      ⟨l₀, hl', late_put hy hl hunspoken (.put k value lease prevKv) hfirst⟩
      (Run.along_of_forall WatchSystem.step (fun _ _ => trivial) y' after)
    obtain ⟨r, hr, hcreated, hlt⟩ := hannounced
    exact absurd hlt (not_lt.mpr (hlate.announced sid r hr hcreated))
  have hused : l₀ ≠ .unused := fun hl => hread (.inl hl)
  constructor
  · rintro ⟨e, he, htype, hkv⟩
    by_contra hnot
    obtain ⟨l', -, hmissed⟩ := life_run (C := fun _ _ => True)
      (P := fun y l => Missed (info.modRevision) sid y i l)
      (fun y a l l' hy _ _ he h => missed_evolves (step_streams hy a) he h) hy'
      ⟨l₀, hl', missed_put hy hl honce hused (.put k value lease prevKv) hnot sid⟩
      (Run.along_of_forall WatchSystem.step (fun _ _ => trivial) y' after)
    exact hmissed.delivered e he htype (by rw [hkv]; rfl)
  · intro hlistening
    obtain ⟨l', hl'', -, hdue⟩ := life_run (C := Kept info i)
      (P := fun y l => Writable y.server.streams sid ∧ Due info sid y i l)
      (fun y a l l' hy hl hC he h =>
        ⟨writable_step hy h.1 a, due_evolves hl hC h.1 (step_streams hy a) he h.2⟩) hy'
      ⟨l₀, hl', writable_step hy (hwritable before) _,
        due_put hy hl (keeps_run hy' hl' hused hw) hsid hk (hwritable before) hlistening⟩ hkept
    obtain rfl := live_unique hz hw hl''
    exact hdue hsid

/-- A put between the created response and the historical range. -/
theorem put_delivered_history :
    let before : List Action := [.connect 0,
      .request 0 (.createRequest { key := [107], startRevision := 1 }), .resume 0, .resume 0]
    let after : List Action := [.resume 0, .resume 0, .resume 0]
    let y := (start .plain).run before
    let info := putInfo none [107] [118] 0 2
    let z := (y.step (.atom (.kv (.put [107] [118] 0 none)))).run after
    (∃ e ∈ delivered z.server.streams 0 1, e.type = .PUT ∧ e.kv = info.kv) ↔ y.Listening 1 :=
  put_delivered_iff (show ∀ n, Env.plain.outcomes 0 n = true from fun _ => rfl)
    [.connect 0, .request 0 (.createRequest { key := [107], startRevision := 1 }), .resume 0,
      .resume 0] [.resume 0, .resume 0, .resume 0] [107] [118] 0 none 1
    (makeWatcher (.new (.front _ _)) { key := [107], startRevision := 1 } (some 0))
    (by decide) (by decide) (by decide) (by decide)
    ⟨fun _ => by decide, fun _ => by decide, fun _ => by decide, trivial⟩

/-- **A put between the created response and the insertion is lost**: it is after the revision
announced, the watcher is registered in the end, and its stream has taken every write. -/
theorem put_lost :
    let y := (start .plain).run [.connect 0, .request 0 (.createRequest { key := [107] }),
      .resume 0, .resume 0, .atom (.kv (.put [107] [118] 0 none)), .resume 0, .resume 0]
    (y.server.watchManager.watchers.find? 1).isSome = true ∧
      (carried y.server.streams 0 1).map (fun r => (r.created, r.header.revision)) = [(true, 1)] ∧
      (y.server.data [107]).map KeyInfo.modRevision = some 2 ∧
      delivered y.server.streams 0 1 = [] := by
  decide

end WatchSystem

end EtcdLite
