import EtcdLite.Watch.Life

/-!
# Watchers and the streams they hold

A watcher holds the stream of the handler that registered it. When the handler returns, the
stream is over, but the handler does not cancel its watchers. So the registry has only
watchers of handlers that are still running exactly as long as each handler that returns
leaves none behind (`attended_iff`); and then, whatever is written goes to a stream that is
not over.
-/

namespace EtcdLite

open Server WatchManager

namespace WatchSystem

/-- The handler of a stream returns in this step: its client has gone, or it has written that a
registration has failed. -/
def Ends (y : WatchSystem) (sid : StreamId) (a : Action) : Prop :=
  (a = .disconnect sid ∧ y.handlers sid = .reading) ∨
    (a = .resume sid ∧ ∃ watchId header, y.handlers sid = .refusing watchId header)

/-- A handler that returns in this step has no watcher in the registry. -/
def LeavesNone (y : WatchSystem) (a : Action) : Prop :=
  ∀ sid, y.Ends sid a → ∀ i w, y.server.watchManager.watchers.find? i = some w → w.stream ≠ some sid

/-- Every watcher in the registry holds the stream of a handler that is running. -/
def Attended (y : WatchSystem) : Prop :=
  ∀ i w, y.server.watchManager.watchers.find? i = some w →
    ∃ sid, w.stream = some sid ∧ (y.handlers sid).Running

/-- What the step writes goes to streams whose handlers are running. -/
def WritesToRunning (y : WatchSystem) (a : Action) : Prop :=
  ∀ e ∈ y.writes a, (y.handlers e.1).Running

/-- A handler that is in the middle of a request is running. -/
theorem running_of_watchId {h : Handler} {i : Int} (hi : h.watchId? = some i) : h.Running := by
  constructor
  · rintro rfl
    cases hi
  · rintro rfl
    cases hi

/-- A watcher in the registry was there before, or has just been inserted. -/
theorem find?_of_step {y : WatchSystem} (h : Orderly y) {a : Action} {i : Int} {w : Watcher}
    (hw : (y.step a).server.watchManager.watchers.find? i = some w) :
    y.server.watchManager.watchers.find? i = some w ∨
      ∃ sid, a = .resume sid ∧ y.handlers sid = .sending w [] := by
  obtain ⟨l, hl⟩ := y.exists_life i
  obtain ⟨l', hl', he⟩ := life_step h hl a
  obtain rfl := live_unique (h.step a) hw hl'
  generalize addressed (y.writes a) i = ws at he
  cases he with
  | rest hrest => exact .inl hl
  | notified ha hsid => exact .inl hl
  | @inserted sid w ha hsid => exact .inr ⟨sid, ha, hl.1⟩

/-- A handler that is running goes on, unless it returns. -/
theorem running_step {y : WatchSystem} {sid : StreamId} {a : Action}
    (hrunning : (y.handlers sid).Running) (hends : ¬ y.Ends sid a) :
    ((y.step a).handlers sid).Running := by
  rcases step_cases y a with ⟨atom, -, hz⟩ | ⟨sid', hm⟩ | ⟨-, -, hz⟩
  · rw [hz]
    exact hrunning
  · by_cases hsid : sid = sid'
    · subst hsid
      generalize y.step a = z at hm
      cases hm with
      | disconnected hh => exact absurd (.inl ⟨rfl, hh⟩) hends
      | refused hh => exact absurd (.inr ⟨rfl, _, _, hh⟩) hends
      | _ =>
        rw [moveTo_self]
        constructor <;> simp
    · rwa [(hm.narrow).others sid hsid]
  · rwa [hz]

/-- A handler that returns leaves the registry alone. -/
theorem Ends.returned {y : WatchSystem} {sid : StreamId} {a : Action} (h : y.Ends sid a) :
    (y.step a).handlers sid = .returned ∧
      (y.step a).server.watchManager = y.server.watchManager := by
  rcases h with ⟨rfl, hh⟩ | ⟨rfl, watchId, header, hh⟩
  · rw [step, if_pos hh]
    exact ⟨moveTo_self .., rfl⟩
  · rw [step, resume, hh]
    exact ⟨moveTo_self .., rfl⟩

/-- The stream of an attended watcher is not over. -/
theorem Attended.running {y : WatchSystem} (hy : Attended y) {i : Int} {w : Watcher}
    {sid : StreamId} (hw : y.server.watchManager.watchers.find? i = some w)
    (hsid : w.stream = some sid) : (y.handlers sid).Running := by
  obtain ⟨sid', hsid', hrunning⟩ := hy i w hw
  obtain rfl : sid = sid' := Option.some.inj (hsid.symm.trans hsid')
  exact hrunning

/-- **The watchers stay attended in a step exactly when it leaves none behind.** -/
theorem leavesNone_iff {y : WatchSystem} (h : Orderly y) (hy : Attended y) (a : Action) :
    LeavesNone y a ↔ Attended (y.step a) := by
  constructor
  · intro hleaves i w hw
    rcases find?_of_step h hw with hbefore | ⟨sid, rfl, hh⟩
    · obtain ⟨sid, hsid, hrunning⟩ := hy i w hbefore
      exact ⟨sid, hsid, running_step hrunning fun hends => hleaves sid hends i w hbefore hsid⟩
    · refine ⟨sid, (h.own sid w (by rw [hh]; rfl)).1, running_step ?_ ?_⟩
      · rw [hh]
        exact running_of_watchId rfl
      · rintro (⟨ha, -⟩ | ⟨-, watchId, header, hh'⟩)
        · cases ha
        · cases hh.symm.trans hh'
  · intro hstep sid hends i w hw hsid
    obtain ⟨hreturned, hwm⟩ := hends.returned
    have hrunning := hstep.running (by rw [hwm]; exact hw) hsid
    exact hrunning.2 hreturned

/-- When the watchers are attended, whatever is written goes to a stream that is not over. -/
theorem Attended.writes {y : WatchSystem} (hy : Attended y) (h : Orderly y) (a : Action) :
    WritesToRunning y a := by
  intro e he
  cases a with
  | atom atom =>
    cases atom with
    | kv op =>
      have hmem : e ∈ addressed (toWrites (op.sends y.server)) e.2.watchId :=
        List.mem_filter.mpr ⟨he, by simp⟩
      rw [addressed_sends h.watched.registry] at hmem
      obtain ⟨w, hw, hmem⟩ := List.mem_flatMap.mp hmem
      obtain ⟨sid, hsid, hmem⟩ := List.mem_flatMap.mp hmem
      obtain ⟨r, -, rfl⟩ := List.mem_map.mp hmem
      exact hy.running (Option.mem_toList.mp hw) (Option.mem_toList.mp hsid)
    | _ => cases he
  | request sid req =>
    cases req with
    | cancelRequest watchId =>
      rw [WatchSystem.writes] at he
      split_ifs at he
      · obtain ⟨w, hmem, hsid⟩ := mem_toWrites he
        obtain ⟨w', hw, heq⟩ := List.mem_map.mp hmem
        obtain rfl : w' = w := congrArg Prod.fst heq
        exact hy.running (Option.mem_toList.mp hw) hsid
      · cases he
    | _ => cases he
  | connect sid => cases he
  | disconnect sid => cases he
  | resume sid =>
    -- A handler in the middle of a request writes to its own stream.
    have hown : ∀ w r, (y.handlers sid).watcher? = some w → e ∈ toWrites [(w, r)] → e.1 = sid := by
      intro w r hw he
      rw [h.toWrites_own hw] at he
      rw [List.mem_singleton.mp he]
    rw [WatchSystem.writes] at he
    cases hh : y.handlers sid with
    | stamped w revision =>
      rw [hh] at he
      rw [hown w _ (by rw [hh]; rfl) he, hh]
      exact running_of_watchId rfl
    | sending w kvs =>
      rw [hh] at he
      cases kvs with
      | nil => cases he
      | cons kv kvs =>
        rw [hown w _ (by rw [hh]; rfl) he, hh]
        exact running_of_watchId rfl
    | refusing watchId header =>
      rw [hh] at he
      rw [List.mem_singleton.mp he]
      show (y.handlers sid).Running
      rw [hh]
      exact running_of_watchId rfl
    | _ =>
      rw [hh] at he
      cases he

/-- **No watcher outlives its stream exactly when no handler leaves one behind.** In any run of
streams, requests, failing writes and returns: every watcher in the registry holds, in every
state reached, the stream of a handler that has not returned, and nothing is written to a
stream that is over, if and only if each handler that returns has no watcher in the registry
when it does. -/
theorem attended_iff (env : Env) (acts : List Action) :
    (∀ pre, pre <+: acts → Attended ((start env).run pre)) ∧
        Run.Along WatchSystem.step WritesToRunning (start env) acts ↔
      Run.Along WatchSystem.step LeavesNone (start env) acts := by
  have hstart : Attended (start env) := by
    intro i w hw
    cases hw
  have halways := Run.along_iff_always WatchSystem.step (C := LeavesNone) (J := Attended)
    (fun _ a h => Orderly.step h a) (fun _ a h hy => leavesNone_iff h hy a) (orderly_start env)
    hstart acts
  refine ⟨fun h => halways.mpr h.1, fun h => ⟨halways.mp h, ?_⟩⟩
  refine Run.along_of_always WatchSystem.step (J := fun y => Orderly y ∧ Attended y)
    (fun y a hy => hy.2.writes hy.1 a) fun pre hpre => ?_
  exact ⟨orderly_run env pre, halways.mp h pre hpre⟩

/-- **A watcher outlives its stream** when its client disconnects, and the next put is written
to the stream. -/
theorem watcher_outlives :
    let acts : List Action := [.connect 0, .request 0 (.createRequest { key := [107] }),
      .resume 0, .resume 0, .resume 0, .resume 0, .disconnect 0]
    let y := (start .plain).run acts
    (y.server.watchManager.watchers.find? 1).map Watcher.stream = some (some 0) ∧
      y.handlers 0 = .returned ∧
      (y.writes (.atom (.kv (.put [107] [118] 0 none)))).map Prod.fst = [0] := by
  decide

end WatchSystem

end EtcdLite
