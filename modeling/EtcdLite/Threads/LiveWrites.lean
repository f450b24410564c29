import EtcdLite.Threads.Serial

/-!
# Live events, under the locks

A put or a deletion tells the watchers with the lock of the store held, one write after another,
while other threads register and cancel watchers, write to other streams, and wait for the store.
So when a live event is written, it is still true (`live_writes_true`): the store has the key-value
that the event of a put shows, and nothing under the key that the event of a deletion shows; and
the revision in the header is that of the store. As revisions only grow, live events are written in
the order of revisions, whichever threads and streams they are from.
-/

namespace EtcdLite.Threads

open Server WatchManager Locks

variable {s₀ : Server}

/-- The contract of the lock of the store by which live events are written under it, and tell of the
store. -/
def liveContract (s₀ : Server) : Contract Mutex Act Server KvOp :=
  { storeContract s₀ with
    Open := fun a => a.owner ≠ some .store ∧ a.live = false
    Must := fun a s => a.live = true → a.Tells s.kvStore }

theorem onStore_live : OnStore s₀ (liveContract s₀) where
  inv := rfl
  rely := rfl
  begins := rfl
  opened := fun _ ha hlive => ⟨ha, hlive⟩
  must := fun _ _ h => h

/-- Revisions only grow. -/
theorem revision_le_run (a : Act) (s : Server) :
    s.kvStore.revision ≤ (a.run s).1.kvStore.revision := by
  by_cases ha : a.owner = some .store
  · have hnext : s.kvStore.revision ≤ s.kvStore.revision + 1 := by omega
    cases a with
    | put key value lease => exact hnext
    | delete key rangeEnd prevKvs => exact hnext
    | txn compares success failure => exact hnext
    | insert key info => exact le_rfl
    | erase key => exact le_rfl
    | readHistory w => exact le_rfl
    | read r => exact le_rfl
    | txnOp revision op => cases op <;> exact le_rfl
    | _ => cases ha
  · rw [kvStore_run ha]

section Runs

variable {T : Type} {y : Locks.State T Mutex Act Server}

/-- No client of the watch manager itself has it notify. -/
def FromStore : Locks.Event T Op → Prop
  | .call _ op => op.notifies = false
  | .resume _ => True

/-- The revision of the live events that a step writes, if it writes any. -/
def liveRevisions (y : Locks.State T Mutex Act Server) : Locks.Event T Op → List Int
  | .call _ _ => []
  | .resume t =>
    match y.prog t with
    | .act (.writing _ response (.notice _)) :: _ =>
      if response.events.isEmpty then [] else [response.header.revision]
    | _ => []

/-- The step that writes live events. -/
theorem mem_liveRevisions {e : Locks.Event T Op} {r : Int} (hr : r ∈ liveRevisions y e) :
    ∃ t sid response w p, y.prog t = .act (.writing sid response (.notice w)) :: p ∧
      response.events ≠ [] ∧ r = response.header.revision := by
  cases e with
  | call t op => cases hr
  | resume t =>
    rw [liveRevisions] at hr
    split at hr
    · next sid response w p hp =>
      split_ifs at hr with hempty
      · cases hr
      · refine ⟨t, sid, response, w, p, hp, ?_, List.mem_singleton.mp hr⟩
        rintro hnil
        exact hempty (List.isEmpty_iff.mpr hnil)
    · cases hr

theorem live_of_events {sid : StreamId} {response : WatchResponse} {w : Watcher}
    (h : response.events ≠ []) : (Act.writing sid response (.notice w)).live = true := by
  simp [Act.live, Writer.live, h]

/-- What is about to be written is true, and is written under the lock of the store. -/
theorem tells_of_settled {h : List KvOp} (hy : Settled system (liveContract s₀) .store y h)
    {t : T} {sid : StreamId} {response : WatchResponse} {w : Watcher} {p : List Instr}
    (hp : y.prog t = .act (.writing sid response (.notice w)) :: p)
    (hevents : response.events ≠ []) :
    y.holder .store = some t ∧ Tells y.data.kvStore response := by
  have hlive : (Act.writing sid response (.notice w)).live = true := live_of_events hevents
  refine ⟨?_, hy.must hp trivial hlive⟩
  by_contra hne
  have hopen := (hy.opened hp hne).2
  rw [hlive] at hopen
  cases hopen

variable [DecidableEq T]

theorem revision_le_step (y : Locks.State T Mutex Act Server) (e : Locks.Event T Op) :
    y.data.kvStore.revision ≤ (Locks.step system y e).data.kvStore.revision := by
  rcases step_cases system y e with ⟨t, op, -, -, hz⟩ | ⟨t, -, hmoves⟩ | hz
  · rw [hz]
  · generalize Locks.step system y e = z at hmoves
    cases hmoves with
    | locked hp hfree => exact le_rfl
    | unlocked hp => exact le_rfl
    | acted hp => exact revision_le_run _ _
  · rw [hz]

/-- The threads keep the contract, and the revisions of the live events so far are in order. -/
structure InOrder (s₀ : Server) (y : Locks.State T Mutex Act Server) (l : List Int) : Prop where
  settled : ∃ h, Settled system (liveContract s₀) .store y h
  sorted : l.Pairwise (· ≤ ·)
  le : ∀ r ∈ l, r ≤ y.data.kvStore.revision

theorem InOrder.step (hs₀ : s₀.Dated) {l : List Int} (h : InOrder s₀ y l) {e : Locks.Event T Op}
    (he : FromStore e) : InOrder s₀ (Locks.step system y e) (l ++ liveRevisions y e) := by
  obtain ⟨hist, hsettled⟩ := h.settled
  -- A live event that is written now has the revision of now.
  have hnow : ∀ r ∈ liveRevisions y e, r = y.data.kvStore.revision := by
    intro r hr
    obtain ⟨t, sid, response, w, p, hp, hevents, rfl⟩ := mem_liveRevisions hr
    exact (tells_of_settled hsettled hp hevents).2.1
  have hpermitted : Permitted (liveContract s₀) (fun op => op.notifies = false) y e := by
    cases e with
    | call t op => exact he
    | resume t => exact fun _ _ _ => trivial
  constructor
  case settled =>
    refine ⟨_, hsettled.step (fun _ => onStore_live.stable _) (fun op hop => ?_) hpermitted⟩
    exact onStore_live.keeps hs₀ op fun hnotifies => by simp [hop] at hnotifies
  case sorted =>
    refine List.pairwise_append.mpr ⟨h.sorted, ?_, fun r hr r' hr' => ?_⟩
    · refine List.pairwise_of_forall_mem_list fun r hr r' hr' => ?_
      rw [hnow r hr, hnow r' hr']
    · rw [hnow r' hr']
      exact h.le r hr
  case le =>
    intro r hr
    refine le_trans ?_ (revision_le_step y e)
    rcases List.mem_append.mp hr with hr | hr
    · exact h.le r hr
    · exact (hnow r hr).le

theorem inOrder_run (env : Env) {evs : List (Locks.Event T Op)} (hevs : ∀ e ∈ evs, FromStore e) :
    InOrder (.new env) (Locks.run system (start T env) evs)
      (Run.log (Locks.step system) liveRevisions (start T env) evs) := by
  have halong : Run.Along (Locks.step system) (fun _ e => FromStore e) (start T env) evs :=
    Run.along_of_split _ fun pre e post hsplit => hevs e (by simp [hsplit])
  exact Run.invariant_log_along _ (fun y e l h he => h.step (dated_new env) he)
    ⟨⟨[], settled_idle rfl⟩, .nil, fun r hr => absurd hr List.not_mem_nil⟩ halong

/-- **Live events are true when they are written, and in order.** In any interleaving of any
operations of any number of threads, but for clients that call `NotifyPut` or `NotifyDelete`
themselves: a thread that is about to write live events holds the lock of the store, and they tell
of it; and the revisions of the live events of the run are in ascending order. -/
theorem live_writes_true (env : Env) (evs : List (Locks.Event T Op))
    (hevs : ∀ e ∈ evs, FromStore e) :
    let y := Locks.run system (start T env) evs
    (∀ t sid response w p, y.prog t = .act (.writing sid response (.notice w)) :: p →
      response.events ≠ [] → y.holder .store = some t ∧ Tells y.data.kvStore response) ∧
    (Run.log (Locks.step system) liveRevisions (start T env) evs).Pairwise (· ≤ ·) := by
  intro y
  have horder := inOrder_run env hevs
  obtain ⟨h, hsettled⟩ := horder.settled
  exact ⟨fun t sid response w p hp hevents => tells_of_settled hsettled hp hevents, horder.sorted⟩

/-- A put that a watcher is told of, with another one that waits for the store. -/
theorem live_writes_true_put :
    let evs : List (Locks.Event ℕ Op) :=
      .call 0 (.registerWatcher { key := [107] } (some 0)) :: List.replicate 9 (.resume 0) ++
        [.call 0 (.put [107] [118] 0), .call 1 (.put [107] [119] 0), .resume 0, .resume 1] ++
        List.replicate 7 (.resume 0)
    let y := Locks.run system (start ℕ .plain) evs
    (∀ t sid response w p, y.prog t = .act (.writing sid response (.notice w)) :: p →
      response.events ≠ [] → y.holder .store = some t ∧ Tells y.data.kvStore response) ∧
    (Run.log (Locks.step system) liveRevisions (start ℕ .plain) evs).Pairwise (· ≤ ·) := by
  refine live_writes_true .plain _ fun e he => ?_
  simp only [List.mem_append, List.mem_cons, List.mem_replicate, List.not_mem_nil, or_false] at he
  rcases he with ((rfl | ⟨-, rfl⟩) | rfl | rfl | rfl | rfl) | ⟨-, rfl⟩ <;> trivial

end Runs

end EtcdLite.Threads
