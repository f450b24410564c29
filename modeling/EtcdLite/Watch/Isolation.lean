import EtcdLite.Watch.Life

/-!
# Cancel requests of another stream

Watch ids come from one counter, and a cancel request is looked up in the registry by its id
alone, whatever stream it arrives on. So a client can cancel a watcher of another. The streams
do not interfere exactly as long as no cancel request names a watcher of another stream
(`undisturbed_iff`): then the watchers of the others stay, and are sent what they would have
been sent without the cancel requests.
-/

namespace EtcdLite

open Server WatchManager

/-- A registered watcher's notices depend on the store only. -/
theorem noticesTo_congr {s t : Server} (h : s.kvStore = t.kvStore) (w : Watcher) (op : KvOp) :
    op.noticesTo s w = op.noticesTo t w := by
  cases op <;> simp only [KvOp.noticesTo, Server.data, Server.matched, h]

namespace WatchSystem

/-- A cancel request that arrives on a stream. -/
def Action.isCancel (sid : StreamId) : Action → Bool
  | .request sid' (.cancelRequest _) => sid' = sid
  | .request _ _ | .atom _ | .connect _ | .disconnect _ | .resume _ => false

/-- The run, without the cancel requests that arrive on a stream. -/
def withoutCancels (sid : StreamId) (acts : List Action) : List Action :=
  acts.filter fun a => !a.isCancel sid

/-- The writes of a step that carry a watch id. -/
def sentTo (i : Int) (y : WatchSystem) (a : Action) : List (StreamId × WatchResponse) :=
  addressed (y.writes a) i

/-- A cancel request on the stream that is taken in this step does not name a watcher of another. -/
def NamesOwn (sid : StreamId) (y : WatchSystem) (a : Action) : Prop :=
  ∀ i w, a = .request sid (.cancelRequest i) → y.handlers sid = .reading →
    y.server.watchManager.watchers.find? i = some w → w.stream = some sid

/-- A cancel request on the stream removes only a watcher of the stream. -/
def RemovesOwn (sid : StreamId) (y : WatchSystem) (a : Action) : Prop :=
  ∀ j i w, a = .request sid (.cancelRequest j) →
    y.server.watchManager.watchers.find? i = some w →
    (y.step a).server.watchManager.watchers.find? i = none → w.stream = some sid

/-- What a cancel request does to the registry. -/
theorem cancel_find? (y : WatchSystem) (sid : StreamId) (j i : Int) :
    (y.step (.request sid (.cancelRequest j))).server.watchManager.watchers.find? i =
      if y.handlers sid = .reading ∧ i = j then none
      else y.server.watchManager.watchers.find? i := by
  rw [step]
  by_cases hh : y.handlers sid = .reading
  · rw [if_pos hh]
    simp only [hh, true_and]
    exact cancelWatcher_find? y.server j i
  · rw [if_neg hh, if_neg fun h => hh h.1]

theorem namesOwn_iff (sid : StreamId) (y : WatchSystem) (a : Action) :
    NamesOwn sid y a ↔ RemovesOwn sid y a := by
  constructor
  · rintro h j i w rfl hw hnone
    rw [cancel_find?] at hnone
    split_ifs at hnone with hboth
    · obtain ⟨hh, rfl⟩ := hboth
      exact h i w rfl hh hw
    · cases hw.symm.trans hnone
  · rintro h i w rfl hh hw
    refine h i i w rfl hw ?_
    rw [cancel_find?, if_pos ⟨hh, rfl⟩]

/-- A registered watcher stays, unless it is named in a cancel request, and is sent the notices
of the operations of the store. -/
theorem live_step {y : WatchSystem} (h : Orderly y) {i : Int} {w : Watcher}
    (hw : y.server.watchManager.watchers.find? i = some w) {a : Action}
    (hcancel : ∀ sid, a ≠ .request sid (.cancelRequest i)) :
    (y.step a).server.watchManager.watchers.find? i = some w ∧
      ((∃ op sid, a = .atom (.kv op) ∧ w.stream = some sid ∧
          sentTo i y a = (op.noticesTo y.server w).map fun r => (sid, r)) ∨
        ((∀ op, a ≠ .atom (.kv op)) ∧ sentTo i y a = [])) := by
  obtain ⟨l', hl', he⟩ := life_step h (l := .live w) hw a
  rw [sentTo]
  generalize addressed (y.writes a) i = ws at he
  cases he with
  | rest hrest => exact ⟨hl', .inr ⟨fun op => hrest w op rfl, rfl⟩⟩
  | @notified w sid op ha hsid => exact ⟨hl', .inl ⟨op, sid, ha, hsid, rfl⟩⟩
  | @canceled w sid sid' ha hsid => exact absurd ha (hcancel sid')

/-! ### Two runs -/

/-- Two systems with the same store, in which a watcher is registered. -/
structure Alike (i : Int) (w : Watcher) (y z : WatchSystem) : Prop where
  left : Orderly y
  right : Orderly z
  store : y.server.kvStore = z.server.kvStore
  watcher : y.server.watchManager.watchers.find? i = some w
  watcher' : z.server.watchManager.watchers.find? i = some w

/-- A step of both that does not cancel the watcher. -/
theorem Alike.step {i : Int} {w : Watcher} {y z : WatchSystem} (h : Alike i w y z) {a : Action}
    (hcancel : ∀ sid, a ≠ .request sid (.cancelRequest i)) :
    Alike i w (y.step a) (z.step a) ∧ sentTo i y a = sentTo i z a := by
  obtain ⟨hw, hsent⟩ := live_step h.left h.watcher hcancel
  obtain ⟨hw', hsent'⟩ := live_step h.right h.watcher' hcancel
  refine ⟨⟨h.left.step a, h.right.step a, ?_, hw, hw'⟩, ?_⟩
  · rcases step_kvStore y a with ⟨op, rfl, hstore⟩ | ⟨hno, hstore⟩
    · rw [hstore]
      exact exec_kvStore_congr h.store op
    · rcases step_kvStore z a with ⟨op, rfl, -⟩ | ⟨-, hstore'⟩
      · exact absurd rfl (hno op)
      · rw [hstore, hstore', h.store]
  · rcases hsent with ⟨op, sid, rfl, hsid, hsent⟩ | ⟨hno, hsent⟩
    · rcases hsent' with ⟨op', sid', ha, hsid', hsent'⟩ | ⟨hno, -⟩
      · obtain rfl : op = op' := Atom.kv.inj (Action.atom.inj ha)
        obtain rfl : sid = sid' := Option.some.inj (hsid.symm.trans hsid')
        rw [hsent, hsent', noticesTo_congr h.store]
      · exact absurd rfl (hno op)
    · rcases hsent' with ⟨op', sid', rfl, -⟩ | ⟨-, hsent'⟩
      · exact absurd rfl (hno op')
      · rw [hsent, hsent']

/-- A cancel request that does not name the watcher, taken by one of them only. -/
theorem Alike.cancel {i : Int} {w : Watcher} {y z : WatchSystem} (h : Alike i w y z)
    {sid : StreamId} {j : Int} (hj : y.handlers sid = .reading → j ≠ i) :
    Alike i w (y.step (.request sid (.cancelRequest j))) z ∧
      sentTo i y (.request sid (.cancelRequest j)) = [] := by
  by_cases hh : y.handlers sid = .reading
  · have hcancel : ∀ sid', Action.request sid (.cancelRequest j) ≠ .request sid' (.cancelRequest i) := by
      intro sid' ha
      cases ha
      exact hj hh rfl
    obtain ⟨hw, hsent⟩ := live_step h.left h.watcher hcancel
    refine ⟨⟨h.left.step _, h.right, ?_, hw, h.watcher'⟩, ?_⟩
    · rcases step_kvStore y (.request sid (.cancelRequest j)) with ⟨op, ha, -⟩ | ⟨-, hstore⟩
      · cases ha
      · rw [hstore, h.store]
    · rcases hsent with ⟨op, sid', ha, -⟩ | ⟨-, hsent⟩
      · cases ha
      · exact hsent
  · rw [WatchSystem.step, if_neg hh, sentTo, writes, if_neg hh]
    exact ⟨h, rfl⟩

/-- Only one stream sends cancel requests. -/
def OnlyCancels (sid : StreamId) (acts : List Action) : Prop :=
  ∀ a ∈ acts, ∀ sid' j, a = .request sid' (.cancelRequest j) → sid' = sid

/-- **Two runs, with the cancel requests of a stream and without them**, are alike for a watcher
of another stream, as long as none names a watcher of another. -/
theorem alike_run {sid : StreamId} {i : Int} {w : Watcher} (hsid : w.stream ≠ some sid)
    {y z : WatchSystem} (h : Alike i w y z) {acts : List Action} (honly : OnlyCancels sid acts)
    (hnames : Run.Along WatchSystem.step (NamesOwn sid) y acts) :
    Alike i w (y.run acts) (z.run (withoutCancels sid acts)) ∧
      Run.log WatchSystem.step (sentTo i) y acts =
        Run.log WatchSystem.step (sentTo i) z (withoutCancels sid acts) := by
  induction acts generalizing y z with
  | nil => exact ⟨h, rfl⟩
  | cons a acts ih =>
    have honly' : OnlyCancels sid acts := fun a ha => honly a (List.mem_cons_of_mem _ ha)
    cases ha : a.isCancel sid with
    | true =>
      -- Only the first run takes it.
      obtain ⟨j, rfl⟩ : ∃ j, a = .request sid (.cancelRequest j) := by
        cases a with
        | request sid' req =>
          cases req with
          | cancelRequest j => exact ⟨j, by rw [of_decide_eq_true ha]⟩
          | _ => cases ha
        | _ => cases ha
      have hj : y.handlers sid = .reading → j ≠ i := by
        rintro hh rfl
        exact hsid (hnames.1 j w rfl hh h.watcher)
      obtain ⟨halike, hsent⟩ := h.cancel hj
      have hdrop : withoutCancels sid (.request sid (.cancelRequest j) :: acts) =
          withoutCancels sid acts := List.filter_cons_of_neg (by simp [ha])
      rw [hdrop, Run.log, hsent]
      exact ih halike honly' hnames.2
    | false =>
      have hcancel : ∀ sid', a ≠ .request sid' (.cancelRequest i) := by
        rintro sid' rfl
        obtain rfl := honly _ List.mem_cons_self sid' i rfl
        simp [Action.isCancel] at ha
      obtain ⟨halike, hsent⟩ := h.step hcancel
      have hkeep : withoutCancels sid (a :: acts) = a :: withoutCancels sid acts :=
        List.filter_cons_of_pos (by simp [ha])
      obtain ⟨hrun, hlog⟩ := ih halike honly' hnames.2
      rw [hkeep, Run.log, Run.log, hsent, hlog]
      exact ⟨hrun, rfl⟩

/-- A stream that takes every write carries, for an id, all that is sent to it. -/
theorem carried_run {y : WatchSystem} (h : Orderly y) {sid : StreamId}
    (hwr : Writable y.server.streams sid) (i : Int) (acts : List Action) :
    carried (y.run acts).server.streams sid i = carried y.server.streams sid i ++
      writtenTo (Run.log WatchSystem.step (sentTo i) y acts) sid := by
  induction acts generalizing y with
  | nil => exact (List.append_nil _).symm
  | cons a acts ih =>
    have happ : ∀ ws ws' : List (StreamId × WatchResponse),
        writtenTo (ws ++ ws') sid = writtenTo ws sid ++ writtenTo ws' sid := fun ws ws' => by
      rw [writtenTo, List.filter_append, List.map_append]
      rfl
    rw [run, Run.final_cons, ih (h.step a) (writable_step h hwr a), Run.log, step_streams h,
      carried_writeAll_of_writable hwr, happ, List.append_assoc]
    rfl

/-- The watchers of the other streams stay, active, and are sent what they would be sent without
the cancel requests; on a stream that takes every write, that is what they receive. -/
def Undisturbed (sid : StreamId) (y : WatchSystem) (acts : List Action) : Prop :=
  ∀ i w, y.server.watchManager.watchers.find? i = some w → w.stream ≠ some sid →
    ∀ pre, pre <+: acts →
      (y.run pre).server.watchManager.watchers.find? i = some w ∧ w.active = true ∧
      Run.log WatchSystem.step (sentTo i) y pre =
        Run.log WatchSystem.step (sentTo i) y (withoutCancels sid pre) ∧
      ∀ sid', Writable y.server.streams sid' → carried (y.run pre).server.streams sid' i =
        carried (y.run (withoutCancels sid pre)).server.streams sid' i

/-- **Watch streams do not interfere exactly when no cancel request names a watcher of
another.** From any state that can be reached, in any run in which only one stream sends cancel
requests: the watchers of the other streams are undisturbed by them, and each removes only a
watcher of its own stream, if and only if no cancel request that is taken names a watcher of
another stream. -/
theorem undisturbed_iff (env : Env) (before : List Action) (sid : StreamId) {acts : List Action}
    (honly : OnlyCancels sid acts) :
    let y := (start env).run before
    Undisturbed sid y acts ∧ Run.Along WatchSystem.step (RemovesOwn sid) y acts ↔
      Run.Along WatchSystem.step (NamesOwn sid) y acts := by
  intro y
  have hy : Orderly y := orderly_run env before
  constructor
  · rintro ⟨-, hremoves⟩
    exact Run.along_imp WatchSystem.step (fun y a => (namesOwn_iff sid y a).mpr) hremoves
  · intro hnames
    refine ⟨?_, Run.along_imp WatchSystem.step (fun y a => (namesOwn_iff sid y a).mp) hnames⟩
    intro i w hw hsid pre hpre
    obtain ⟨post, rfl⟩ := hpre
    obtain ⟨hrun, hlog⟩ := alike_run hsid ⟨hy, hy, rfl, hw, hw⟩
      (fun a ha => honly a (List.mem_append_left _ ha))
      ((Run.along_append WatchSystem.step _ y pre post).mp hnames).1
    refine ⟨hrun.watcher, hy.watched.registry.active i w hw, hlog, fun sid' hwr => ?_⟩
    rw [carried_run hy hwr, carried_run hy hwr, hlog]

/-- Two streams with a watcher each; one cancels its own, and a put follows. -/
theorem undisturbed_own :
    let before : List Action := [.connect 0, .request 0 (.createRequest { key := [107] }),
      .resume 0, .resume 0, .resume 0, .resume 0, .connect 1,
      .request 1 (.createRequest { key := [107] }), .resume 1, .resume 1, .resume 1, .resume 1]
    let acts : List Action :=
      [.request 1 (.cancelRequest 2), .atom (.kv (.put [107] [118] 0 none))]
    let y := (start .plain).run before
    Undisturbed 1 y acts ∧ Run.Along WatchSystem.step (RemovesOwn 1) y acts ↔
      Run.Along WatchSystem.step (NamesOwn 1) y acts :=
  undisturbed_iff .plain _ 1 (by
    intro a ha sid' j hj
    rcases List.mem_cons.mp ha with rfl | ha
    · cases hj
      rfl
    · rw [List.mem_singleton.mp ha] at hj
      cases hj)

/-- **A cancel request removes a watcher of another stream**, which is no longer notified. -/
theorem cancels_other :
    let y := (start .plain).run [.connect 0, .request 0 (.createRequest { key := [107] }),
      .resume 0, .resume 0, .resume 0, .resume 0, .connect 1]
    let z := y.step (.request 1 (.cancelRequest 1))
    (y.server.watchManager.watchers.find? 1).map Watcher.stream = some (some 0) ∧
      z.server.watchManager.watchers.find? 1 = none ∧
      (y.writes (.atom (.kv (.put [107] [118] 0 none)))).map Prod.fst = [0] ∧
      z.writes (.atom (.kv (.put [107] [118] 0 none))) = [] := by
  decide

end WatchSystem

end EtcdLite
