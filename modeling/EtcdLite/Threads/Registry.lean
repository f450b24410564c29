import EtcdLite.Threads.Programs

/-!
# Under the lock of the registry

The shape of the programs at the lock of the registry of watchers (`Guarded`): notices are
written, and watchers inserted and erased, by a thread that holds the lock only, and a thread
that holds it writes notices to watchers of the registry. A registration writes without the
lock, and has nothing to do any more once its watcher is inserted. Every step of a thread keeps
the shape (`guarded_run`).
-/

namespace EtcdLite.Threads

open Server WatchManager WatchSystem

/-- It is in the registry. -/
def Registered (s : Server) (w : Watcher) : Prop := ∃ i, s.watchManager.watchers.find? i = some w

namespace Act

/-- It is done under the lock of the registry. -/
def inWatch : Act → Bool
  | .notifyPut _ _ _ _ | .notifyDelete _ _ _ | .cancelWatcher _ | .eraseWatcher _ | .insertWatcher _
  | .write _ _ (.notice _) | .writing _ _ (.notice _) => true
  | _ => false

/-- It changes the registry. -/
def changesRegistry : Act → Bool
  | .eraseWatcher _ | .insertWatcher _ => true
  | _ => false

/-- No notice comes after what it puts in front of the rest. -/
def lastNotice : Act → Bool
  | .cancelWatcher _ | .eraseWatcher _ | .insertWatcher _ => true
  | _ => false

/-- The stream that it writes to, and whose write it is. -/
def write? : Act → Option (StreamId × Writer)
  | .write sid _ writer | .writing sid _ writer => some (sid, writer)
  | _ => none

/-- The stream of the registration that it is a part of. The response of a handler that a
registration has failed is a part of it. -/
def registration : Act → Option StreamId
  | .takeId _ stream _ => stream
  | .readRevision w _ | .readHistory w | .insertWatcher w => w.stream
  | .write _ _ (.notice _) | .writing _ _ (.notice _) => none
  | .write sid _ _ | .writing sid _ _ | .refuse sid _ => some sid
  | _ => none

/-- Of the registration that it is a part of, nothing comes after what it puts in front of the
rest. -/
def lastOfRegistration : Act → Bool
  | .takeId _ _ _ | .readRevision _ _ | .readHistory _ | .insertWatcher _
  | .write _ _ (.created _ _) | .writing _ _ (.created _ _) => true
  | _ => false

/-- It has nothing to do with the registry, nor with streams. -/
def plain (a : Act) : Bool := !a.inWatch && !a.lastOfRegistration && a.write?.isNone

end Act

/-- The stream that an operation registers a watcher on. -/
def Op.registration : Op → Option StreamId
  | .registerWatcher _ stream => stream
  | .serve sid (.createRequest _) => some sid
  | _ => none

/-! ### The shape -/

/-- The registrations that a program is a part of are on this stream. -/
def Within (r : Option StreamId) (q : List Instr) : Prop :=
  ∀ a, .act a ∈ q → a.registration = none ∨ a.registration = r

/-- A thread does not hold the lock of the registry, or holds it, and its notices are for watchers
with a property. -/
abbrev Hold := Option (Watcher → Prop)

/-- It may write to the stream. -/
def Writer.MayWrite (P : Hold) (sid : StreamId) : Writer → Prop
  | .notice w => w.stream = some sid ∧ ∃ Q ∈ P, Q w
  | .created w _ | .historical w => w.stream = some sid
  | .refusal => True

/-- It may be done by such a thread, when this is the rest. -/
structure Allowed (P : Hold) (a : Act) (p : List Instr) : Prop where
  inWatch : a.inWatch = P.isSome
  write : ∀ sid writer, a.write? = some (sid, writer) → writer.MayWrite P sid
  last : a.lastOfRegistration = true → Within none p

/-- The shape of a program. When the lock is taken, there are no notices yet. -/
def Guarded : Hold → List Instr → Prop
  | P, [] => P = none
  | P, .lock m :: p =>
    if m = .watch then P = none ∧ Guarded (some fun _ => False) p else Guarded P p
  | P, .unlock m :: p => if m = .watch then P.isSome ∧ Guarded none p else Guarded P p
  | P, .act a :: p =>
    Allowed P a p ∧ Guarded (if a.lastNotice then P.map fun _ _ => False else P) p

section Shape

variable {P : Hold} {r : Option StreamId} {p q q' : List Instr}

theorem guarded_lock {m : Mutex} (hm : m ≠ .watch) : Guarded P (.lock m :: p) ↔ Guarded P p := by
  rw [Guarded, if_neg hm]

theorem guarded_unlock {m : Mutex} (hm : m ≠ .watch) : Guarded P (.unlock m :: p) ↔ Guarded P p := by
  rw [Guarded, if_neg hm]

theorem guarded_lock_watch :
    Guarded P (.lock .watch :: p) ↔ P = none ∧ Guarded (some fun _ => False) p := by
  rw [Guarded, if_pos rfl]

theorem guarded_unlock_watch : Guarded P (.unlock .watch :: p) ↔ P.isSome ∧ Guarded none p := by
  rw [Guarded, if_pos rfl]

/-- More watchers may be written notices to. -/
theorem Guarded.mono {R R' : Watcher → Prop} (hR : ∀ w, R w → R' w) (h : Guarded (some R) p) :
    Guarded (some R') p := by
  induction p with
  | nil => cases h
  | cons i p ih =>
    cases i with
    | lock m =>
      by_cases hm : m = .watch
      · subst hm
        cases (guarded_lock_watch.mp h).1
      · exact (guarded_lock hm).mpr (ih ((guarded_lock hm).mp h))
    | unlock m =>
      by_cases hm : m = .watch
      · subst hm
        exact guarded_unlock_watch.mpr ⟨rfl, (guarded_unlock_watch.mp h).2⟩
      · exact (guarded_unlock hm).mpr (ih ((guarded_unlock hm).mp h))
    | act a =>
      obtain ⟨⟨hin, hwrite, hlast⟩, hp⟩ := h
      refine ⟨⟨hin, fun sid writer hw => ?_, hlast⟩, ?_⟩
      · have hmay := hwrite sid writer hw
        cases writer with
        | notice w =>
          obtain ⟨hsid, Q, hQ, hQw⟩ := hmay
          cases hQ
          exact ⟨hsid, R', rfl, hR w hQw⟩
        | created w handler => exact hmay
        | historical w => exact hmay
        | refusal => exact hmay
      · split_ifs at hp ⊢
        · exact hp
        · exact ih hp

theorem Within.nil : Within r [] := fun _ ha => absurd ha List.not_mem_nil

theorem Within.append (h : Within r q) (h' : Within r q') : Within r (q ++ q') :=
  fun a ha => (List.mem_append.mp ha).elim (h a) (h' a)

theorem Within.act {a : Act} (ha : a.registration = none ∨ a.registration = r) (h : Within r q) :
    Within r (.act a :: q) := by
  intro b hb
  rcases List.mem_cons.mp hb with hb | hb
  · cases hb
    exact ha
  · exact h b hb

theorem Within.lock {m : Mutex} (h : Within r q) : Within r (.lock m :: q) := by
  intro b hb
  rcases List.mem_cons.mp hb with hb | hb
  · cases hb
  · exact h b hb

theorem Within.unlock {m : Mutex} (h : Within r q) : Within r (.unlock m :: q) := by
  intro b hb
  rcases List.mem_cons.mp hb with hb | hb
  · cases hb
  · exact h b hb

/-! ### Parts of programs -/

/-- A part that a program of the shape may go on with. -/
structure Fits (P : Hold) (r : Option StreamId) (q : List Instr) : Prop where
  guarded : ∀ p, Guarded P p → Guarded P (q ++ p)
  within : Within r q

/-- A part, at the end of a registration. -/
structure Closes (r : Option StreamId) (q : List Instr) : Prop where
  guarded : ∀ p, Within none p → Guarded none p → Guarded none (q ++ p)
  within : Within r q

theorem Fits.nil : Fits P r [] := ⟨fun _ h => h, .nil⟩

theorem Fits.append (h : Fits P r q) (h' : Fits P r q') : Fits P r (q ++ q') where
  guarded p hp := by
    rw [List.append_assoc]
    exact h.guarded _ (h'.guarded p hp)
  within := h.within.append h'.within

theorem Fits.flatMap {α : Type*} {l : List α} {f : α → List Instr} (h : ∀ a ∈ l, Fits P r (f a)) :
    Fits P r (l.flatMap f) := by
  induction l with
  | nil => exact .nil
  | cons a l ih =>
    rw [List.flatMap_cons]
    exact (h a List.mem_cons_self).append (ih fun a' ha' => h a' (List.mem_cons_of_mem a ha'))

theorem Fits.lock {m : Mutex} (hm : m ≠ .watch) (h : Fits P r q) : Fits P r (.lock m :: q) :=
  ⟨fun p hp => (guarded_lock hm).mpr (h.guarded p hp), h.within.lock⟩

theorem Fits.unlock {m : Mutex} (hm : m ≠ .watch) (h : Fits P r q) : Fits P r (.unlock m :: q) :=
  ⟨fun p hp => (guarded_unlock hm).mpr (h.guarded p hp), h.within.unlock⟩

theorem Fits.act {a : Act} (ha : ∀ p, Allowed P a p) (hlast : a.lastNotice = false)
    (hr : a.registration = none ∨ a.registration = r) (h : Fits P r q) : Fits P r (.act a :: q) where
  guarded p hp := by
    refine ⟨ha _, ?_⟩
    rw [hlast, if_neg Bool.false_ne_true]
    exact h.guarded p hp
  within := h.within.act hr

theorem Fits.closes (h : Fits none r q) (h' : Closes r q') : Closes r (q ++ q') where
  guarded p hp hp' := by
    rw [List.append_assoc]
    exact h.guarded _ (h'.guarded p hp hp')
  within := h.within.append h'.within

theorem Closes.nil : Closes r [] := ⟨fun _ _ hp => hp, .nil⟩

theorem Closes.lock {m : Mutex} (hm : m ≠ .watch) (h : Closes r q) : Closes r (.lock m :: q) :=
  ⟨fun p hp hp' => (guarded_lock hm).mpr (h.guarded p hp hp'), h.within.lock⟩

theorem Closes.unlock {m : Mutex} (hm : m ≠ .watch) (h : Closes r q) : Closes r (.unlock m :: q) :=
  ⟨fun p hp hp' => (guarded_unlock hm).mpr (h.guarded p hp hp'), h.within.unlock⟩

/-- An action that has nothing to do with the registry. -/
theorem guarded_apart {a : Act} (ha : a.inWatch = false)
    (hwrite : ∀ sid writer, a.write? = some (sid, writer) → writer.MayWrite none sid)
    (hlast : a.lastOfRegistration = true → Within none p) (hp : Guarded none p) :
    Guarded none (.act a :: p) := by
  refine ⟨⟨ha, hwrite, hlast⟩, ?_⟩
  split_ifs <;> exact hp

/-- The last action of a registration. -/
theorem closes_act {a : Act} (ha : a.inWatch = false)
    (hwrite : ∀ sid writer, a.write? = some (sid, writer) → writer.MayWrite none sid)
    (hr : a.registration = r) : Closes r [.act a] :=
  ⟨fun _ hp hp' => guarded_apart ha hwrite (fun _ => hp) hp', .act (.inr hr) .nil⟩

/-- Another action of a registration. -/
theorem fits_apart {a : Act} (ha : a.inWatch = false)
    (hwrite : ∀ sid writer, a.write? = some (sid, writer) → writer.MayWrite none sid)
    (hlast : a.lastOfRegistration = false) (hr : a.registration = none ∨ a.registration = r) :
    Fits none r [.act a] := by
  refine ⟨fun p hp => guarded_apart ha hwrite (fun h => ?_) hp, .act hr .nil⟩
  rw [hlast] at h
  cases h

theorem fits_act {a : Act} (ha : a.plain = true) (hr : a.registration = none ∨ a.registration = r) :
    Fits none r [.act a] := by
  simp only [Act.plain, Bool.and_eq_true, Bool.not_eq_true', Option.isNone_iff_eq_none] at ha
  obtain ⟨⟨hin, hlast⟩, hwrite⟩ := ha
  refine fits_apart hin (fun sid writer h => ?_) hlast hr
  rw [hwrite] at h
  cases h

theorem fits_locked {m : Mutex} {a : Act} (hm : m ≠ .watch) (ha : a.plain = true)
    (hr : a.registration = none) : Fits none r (locked m a) :=
  .lock hm ((fits_act ha (.inl hr)).append (.unlock hm .nil))

/-- An action that is done under the lock, and is not a part of a registration. -/
theorem fits_locked_watch {a : Act} (hin : a.inWatch = true) (hwrite : a.write? = none)
    (hlast : a.lastOfRegistration = false) (hr : a.registration = none) :
    Fits none r (locked .watch a) where
  guarded p hp := by
    refine guarded_lock_watch.mpr ⟨rfl, ⟨⟨hin, fun sid writer hw => ?_, fun h => ?_⟩, ?_⟩⟩
    · rw [hwrite] at hw
      cases hw
    · rw [hlast] at h
      cases h
    · split_ifs <;> exact guarded_unlock_watch.mpr ⟨rfl, hp⟩
  within := .lock (.act (.inl hr) (.unlock .nil))

end Shape

/-! ### The parts that the actions put in front -/

section Parts

variable {r : Option StreamId}

theorem fits_relinkCalls (b : Bool) (old : Option KeyInfo) (key : Bytes) (lease : Int) :
    Fits none r (relinkCalls b old key lease) := by
  rw [relinkCalls]
  split_ifs
  · exact (fits_locked (by simp) rfl rfl).append
      (fits_locked (by simp) rfl rfl)
  · exact fits_locked (by simp) rfl rfl
  · exact fits_locked (by simp) rfl rfl
  · exact .nil

theorem fits_detachAndEraseCalls (b : Bool) (pairs : List (Bytes × Int)) :
    Fits none r (detachAndEraseCalls b pairs) := by
  refine .flatMap fun e _ => ?_
  obtain ⟨k, lease⟩ := e
  refine Fits.append ?_ (fits_act rfl (.inl rfl))
  split_ifs
  · exact fits_locked (by simp) rfl rfl
  · exact .nil

theorem fits_putCallbackCall (b : Bool) (key : Bytes) (kv : KeyValue) (prevKv : Option KeyValue) :
    Fits none r (putCallbackCall b key kv prevKv) := by
  rw [putCallbackCall]
  split_ifs
  · exact fits_act rfl (.inl rfl)
  · exact .nil

theorem fits_deleteCallbackCalls (b : Bool) (kvs : List KeyValue) :
    Fits none r (deleteCallbackCalls b kvs) := by
  rw [deleteCallbackCalls, List.map_eq_flatMap]
  split_ifs
  · exact .flatMap fun kv _ => fits_act rfl (.inl rfl)
  · exact .nil

/-- A notice to a watcher of the registry. -/
theorem fits_notice {R : Watcher → Prop} {w : Watcher} (hw : R w) (response : WatchResponse) :
    Fits (some R) r (sendCall w response (.notice w)) := by
  rw [sendCall]
  cases hsid : w.stream with
  | none => exact .nil
  | some sid =>
    refine .lock (by simp) (.act (fun p => ⟨rfl, fun sid' writer h => ?_, ?_⟩) rfl (.inl rfl) .nil)
    · cases h
      exact ⟨hsid, R, rfl, hw⟩
    · exact nofun

theorem fits_notifyCalls (s : Server) (key : Bytes) (response : Watcher → WatchResponse) :
    Fits (some (Registered s)) r (notifyCalls s.watchManager key response) := by
  refine .flatMap fun e he => fits_notice ?_ e.2
  obtain ⟨⟨i, w⟩, hi, rfl⟩ := List.mem_map.mp he
  exact ⟨i, UnorderedMap.mem_toList.mp (List.mem_filter.mp hi).1⟩

theorem closes_insertCall (w : Watcher) : Closes w.stream (insertCall w) where
  guarded _ hp hp' :=
    guarded_lock_watch.mpr ⟨rfl, ⟨⟨rfl, nofun, fun _ => hp.unlock⟩,
      guarded_unlock_watch.mpr ⟨rfl, hp'⟩⟩⟩
  within := .lock (.act (.inr rfl) (.unlock .nil))

theorem closes_historyCall (w : Watcher) : Closes w.stream (Writer.historyCall w) := by
  rw [Writer.historyCall]
  split_ifs
  · exact .lock (by simp) (closes_act rfl nofun rfl)
  · exact closes_insertCall w

theorem closes_next (w : Watcher) (handler ok : Bool) :
    Closes w.stream ((Writer.created w handler).next ok) := by
  rw [Writer.next]
  split_ifs
  · exact closes_historyCall w
  · cases hsid : w.stream with
    | none => exact .nil
    | some sid => exact closes_act rfl nofun rfl
  · exact .nil

theorem closes_created (w : Watcher) (response : WatchResponse) (handler : Bool) :
    Closes w.stream (sendCall w response (.created w handler)) := by
  unfold sendCall
  split
  · exact closes_next w handler true
  · next sid hsid =>
    rw [hsid]
    refine .lock (by simp) (closes_act rfl (fun sid' writer h => ?_) rfl)
    cases h
    exact hsid

theorem fits_historical (w : Watcher) (response : WatchResponse) :
    Fits none w.stream (sendCall w response (.historical w)) := by
  rw [sendCall]
  cases hsid : w.stream with
  | none => exact .nil
  | some sid =>
    refine .lock (by simp) (fits_apart rfl (fun sid' writer h => ?_) rfl (.inr rfl))
    cases h
    exact hsid

end Parts

/-! ### Steps -/

/-- What a thread may write notices to, when it holds the lock of the registry. -/
def hold (inside : Bool) (s : Server) : Hold := if inside then some (Registered s) else none

/-- A part that does not depend on the lock of the registry. -/
theorem Fits.run {r : Option StreamId} {inside : Bool} {s s' : Server} {a : Act} {p q : List Instr}
    (hin : a.inWatch = false) (h : Fits none r q) (hg : Guarded (hold inside s) (.act a :: p)) :
    Guarded (hold inside s') (q ++ p) ∧ Within r q := by
  obtain ⟨⟨hinside, -, -⟩, hp⟩ := hg
  cases inside with
  | true =>
    rw [hin] at hinside
    cases hinside
  | false =>
    refine ⟨h.guarded p ?_, h.within⟩
    split_ifs at hp <;> exact hp

theorem Closes.run {r : Option StreamId} {inside : Bool} {s s' : Server} {a : Act} {p q : List Instr}
    (hin : a.inWatch = false) (hlast : a.lastOfRegistration = true) (h : Closes r q)
    (hg : Guarded (hold inside s) (.act a :: p)) :
    Guarded (hold inside s') (q ++ p) ∧ Within r q := by
  obtain ⟨⟨hinside, -, hwithin⟩, hp⟩ := hg
  cases inside with
  | true =>
    rw [hin] at hinside
    cases hinside
  | false =>
    refine ⟨h.guarded p (hwithin hlast) ?_, h.within⟩
    split_ifs at hp <;> exact hp

/-- A part of a program that holds the lock of the registry. -/
theorem Fits.runInside {inside : Bool} {s : Server} {a : Act} {p q : List Instr}
    (hin : a.inWatch = true) (hlast : a.lastNotice = false) (h : Fits (some (Registered s)) none q)
    (hg : Guarded (hold inside s) (.act a :: p)) :
    Guarded (hold inside s) (q ++ p) ∧ Within none q := by
  obtain ⟨⟨hinside, -, -⟩, hp⟩ := hg
  cases inside with
  | false =>
    rw [hin] at hinside
    cases hinside
  | true =>
    rw [hlast, if_neg Bool.false_ne_true] at hp
    exact ⟨h.guarded p hp, h.within⟩

/-- **An action keeps the shape of its program**, and what it puts in front is a part of its
registration. -/
theorem guarded_run {inside : Bool} {s : Server} {a : Act} {p : List Instr}
    (h : Guarded (hold inside s) (.act a :: p)) :
    Guarded (hold inside (a.run s).1) ((a.run s).2 ++ p) ∧ Within a.registration (a.run s).2 := by
  cases a with
  | put key value lease =>
    exact ((fits_relinkCalls _ _ _ _).append ((fits_act rfl (.inl rfl)).append
      (fits_putCallbackCall _ _ _ _))).run rfl h
  | insert key info => exact Fits.nil.run rfl h
  | putCallback key kv prevKv => exact (fits_locked_watch rfl rfl rfl rfl).run rfl h
  | delete key rangeEnd prevKvs =>
    exact ((fits_detachAndEraseCalls _ _).append (fits_deleteCallbackCalls _ _)).run rfl h
  | erase key => exact Fits.nil.run rfl h
  | deleteCallback kv => exact (fits_locked_watch rfl rfl rfl rfl).run rfl h
  | txn compares success failure =>
    refine Fits.run rfl ?_ h
    dsimp only [Act.run]
    rw [List.map_eq_flatMap]
    exact .flatMap fun op _ => fits_act rfl (.inl rfl)
  | txnOp newRevision op =>
    refine Fits.run rfl ?_ h
    cases op with
    | requestPut r => exact (fits_relinkCalls _ _ _ _).append (fits_act rfl (.inl rfl))
    | requestDeleteRange r => exact fits_detachAndEraseCalls _ _
    | requestRange r => exact fits_act rfl (.inl rfl)
    | requestTxn compares success failure => exact .nil
    | notSet => exact .nil
  | read r => exact (fits_act rfl (.inl rfl)).run rfl h
  | answer answer => exact Fits.nil.run rfl h
  | grant now ttl => exact Fits.nil.run rfl h
  | keepAlive now leaseId => exact Fits.nil.run rfl h
  | attachKey leaseId key => exact Fits.nil.run rfl h
  | detachKey leaseId key => exact Fits.nil.run rfl h
  | getLeaseKeys leaseId =>
    refine Fits.run rfl (.unlock (by simp) ?_) h
    cases s.leaseManager.getLeaseKeys leaseId with
    | error rc => exact .nil
    | ok keys =>
      refine Fits.append ?_ (fits_locked (by simp) rfl rfl)
      split_ifs
      · exact .flatMap fun key _ => fits_locked (by simp) rfl rfl
      · exact .nil
  | eraseLease leaseId => exact Fits.nil.run rfl h
  | expiredLeases now =>
    exact Fits.run rfl (.unlock (by simp) (.flatMap fun leaseId _ =>
      .lock (by simp) (fits_act rfl (.inl rfl)))) h
  | notifyPut key kv prevKv revision => exact (fits_notifyCalls s key _).runInside rfl rfl h
  | notifyDelete key kv revision => exact (fits_notifyCalls s key _).runInside rfl rfl h
  | cancelWatcher watchId =>
    cases inside with
    | false => cases h.1.inWatch
    | true =>
      have hp : Guarded (some fun _ => False) p := h.2
      rw [Act.run]
      cases hw : s.watchManager.watchers.find? watchId with
      | none => exact ⟨hp.mono fun _ => False.elim, .nil⟩
      | some w =>
        have hsend : Fits (some (Registered s)) none
            (sendCall w (canceledResponse s watchId) (.notice w)) := fits_notice ⟨watchId, hw⟩ _
        refine ⟨?_, hsend.within.append (.act (.inl rfl) .nil)⟩
        dsimp only
        rw [List.append_assoc]
        exact hsend.guarded _ ⟨⟨rfl, nofun, nofun⟩, hp⟩
  | eraseWatcher watchId =>
    cases inside with
    | false => cases h.1.inWatch
    | true => exact ⟨Guarded.mono (fun _ => False.elim) h.2, .nil⟩
  | takeId req stream handler => exact Closes.run rfl rfl (closes_act rfl nofun rfl) h
  | readRevision w handler => exact Closes.run rfl rfl (closes_created w _ handler) h
  | readHistory w =>
    exact Closes.run rfl rfl (.unlock (by simp) ((Fits.flatMap fun kv _ =>
      fits_historical w _).closes (closes_insertCall w))) h
  | insertWatcher w =>
    cases inside with
    | false => cases h.1.inWatch
    | true => exact ⟨Guarded.mono (fun _ => False.elim) h.2, .nil⟩
  | write sid response writer =>
    cases writer with
    | notice w =>
      cases inside with
      | false => cases h.1.inWatch
      | true => exact ⟨⟨⟨rfl, h.1.write, nofun⟩, h.2⟩, .act (.inl rfl) .nil⟩
    | created w handler =>
      refine Closes.run rfl rfl (closes_act rfl (fun sid' writer hw => ?_) rfl) h
      cases hw
      exact h.1.write sid _ rfl
    | historical w =>
      refine Fits.run rfl (fits_apart rfl (fun sid' writer hw => ?_) rfl (.inr rfl)) h
      cases hw
      exact h.1.write sid _ rfl
    | refusal =>
      refine Fits.run rfl (fits_apart rfl (fun sid' writer hw => ?_) rfl (.inr rfl)) h
      cases hw
      trivial
  | writing sid response writer =>
    cases writer with
    | notice w => exact Fits.runInside rfl rfl (.unlock (by simp) .nil) h
    | created w handler =>
      have hsid : w.stream = some sid := h.1.write sid _ rfl
      have hnext := closes_next w handler ((s.streams sid).write response).1
      rw [hsid] at hnext
      exact Closes.run rfl rfl (.unlock (by simp) hnext) h
    | historical w => exact Fits.run rfl (.unlock (by simp) .nil) h
    | refusal => exact Fits.nil.run rfl h
  | refuse sid watchId =>
    refine Fits.run rfl (fits_apart rfl (fun sid' writer h => ?_) rfl (.inr rfl)) h
    cases h
    trivial

/-- An action that does not change the registry leaves it as it is. -/
theorem registered_run {a : Act} (ha : a.changesRegistry = false) (s : Server) :
    Registered (a.run s).1 = Registered s := by
  have hwatchers : (a.run s).1.watchManager.watchers = s.watchManager.watchers := by
    cases a with
    | eraseWatcher watchId => cases ha
    | insertWatcher w => cases ha
    | txnOp newRevision op => cases op <;> rfl
    | keepAlive now leaseId =>
      rw [Act.run, Server.keepAlive]
      cases s.leaseManager.keepAlive now leaseId <;> rfl
    | cancelWatcher watchId =>
      rw [Act.run]
      cases s.watchManager.watchers.find? watchId <;> rfl
    | _ => rfl
  unfold Registered
  rw [hwatchers]

theorem Act.inWatch_of_changesRegistry {a : Act} (h : a.changesRegistry = true) :
    a.inWatch = true := by
  unfold changesRegistry at h
  split at h
  · rfl
  · rfl
  · cases h

/-- A watcher comes into the registry by being inserted. -/
theorem registered_cases {a : Act} {s : Server} {w : Watcher} (h : Registered (a.run s).1 w) :
    Registered s w ∨ a = .insertWatcher w := by
  cases hchange : a.changesRegistry with
  | false =>
    left
    rwa [registered_run hchange] at h
  | true =>
    obtain ⟨i, hi⟩ := h
    unfold Act.changesRegistry at hchange
    split at hchange
    · left
      rw [Act.run, WatchSystem.eraseWatcher, UnorderedMap.find?_erase] at hi
      split_ifs at hi
      exact ⟨i, hi⟩
    · rw [Act.run, WatchSystem.insertWatcher, UnorderedMap.find?_insert] at hi
      split_ifs at hi
      · exact .inr (by rw [Option.some.inj hi])
      · exact .inl ⟨i, hi⟩
    · cases hchange

/-- The programs of the operations have the shape. -/
theorem guarded_program (op : Op) : Guarded none op.program ∧ Within op.registration op.program := by
  have hfits : ∀ {q : List Instr}, Fits none op.registration q →
      Guarded none q ∧ Within op.registration q := by
    intro q h
    have hq := h.guarded [] rfl
    rw [List.append_nil] at hq
    exact ⟨hq, h.within⟩
  have hcloses : ∀ {q : List Instr}, Closes op.registration q →
      Guarded none q ∧ Within op.registration q := by
    intro q h
    have hq := h.guarded [] .nil rfl
    rw [List.append_nil] at hq
    exact ⟨hq, h.within⟩
  cases op with
  | put key value lease => exact hfits (fits_locked (by simp) rfl rfl)
  | delete key rangeEnd prevKvs => exact hfits (fits_locked (by simp) rfl rfl)
  | txn compares success failure => exact hfits (fits_locked (by simp) rfl rfl)
  | read r => exact hfits (fits_locked r.mutex_ne_watch rfl rfl)
  | grant now ttl => exact hfits (fits_locked (by simp) rfl rfl)
  | revoke leaseId => exact hfits (.lock (by simp) (fits_act rfl (.inl rfl)))
  | keepAlive now leaseId => exact hfits (fits_locked (by simp) rfl rfl)
  | attachKey leaseId key => exact hfits (fits_locked (by simp) rfl rfl)
  | detachKey leaseId key => exact hfits (fits_locked (by simp) rfl rfl)
  | checkExpiration now => exact hfits (.lock (by simp) (fits_act rfl (.inl rfl)))
  | registerWatcher req stream => exact hcloses (closes_act rfl nofun rfl)
  | cancelWatcher watchId => exact hfits (fits_locked_watch rfl rfl rfl rfl)
  | notifyPut key kv prevKv revision => exact hfits (fits_locked_watch rfl rfl rfl rfl)
  | notifyDelete key kv revision => exact hfits (fits_locked_watch rfl rfl rfl rfl)
  | serve sid req =>
    cases req with
    | createRequest req => exact hcloses (closes_act rfl nofun rfl)
    | cancelRequest watchId => exact hfits (fits_locked_watch rfl rfl rfl rfl)
    | progressRequest => exact hfits .nil
    | notSet => exact hfits .nil

end EtcdLite.Threads
