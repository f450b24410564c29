import EtcdLite.Threads.Registry

/-!
# Writers of a stream

A gRPC stream takes one `Write` at a time. The lock that a write takes is that of its watcher,
and several watchers can share a stream, so the locks alone do not keep two writes apart: while
a handler registers a second watcher on its stream, a put may notify the first
(`two_writes`). What keeps them apart is that a stream has one watcher: if no watcher is
registered on a stream when a registration on it begins, and no other registration on it is going
on, then in every run no two threads write to one stream at a time (`one_writer`). The lock of the
registry keeps the notices apart from each other, and a registration writes to a stream that no
notice is written to.
-/

namespace EtcdLite.Threads

open Server WatchManager WatchSystem Locks

section Runs

variable {T : Type}

/-- The thread is in a `Write` to the stream. -/
def Writing (y : State T Mutex Act Server) (t : T) (sid : StreamId) : Prop :=
  ∃ response writer p, y.prog t = .act (.writing sid response writer) :: p

/-- Whether a program is in a `Write` to the stream. -/
def inWrite (sid : StreamId) : List Instr → Bool
  | .act (.writing sid' _ _) :: _ => sid' = sid
  | _ => false

theorem writing_iff {y : State T Mutex Act Server} {t : T} {sid : StreamId} :
    Writing y t sid ↔ inWrite sid (y.prog t) = true := by
  constructor
  · rintro ⟨response, writer, p, hp⟩
    rw [hp]
    exact decide_eq_true rfl
  · intro h
    unfold inWrite at h
    split at h
    · next sid' response writer p hp =>
      obtain rfl := of_decide_eq_true h
      exact ⟨response, writer, p, hp⟩
    · cases h

/-- Two threads are in a `Write` to the stream. -/
def TwoWrites (y : State T Mutex Act Server) (sid : StreamId) : Prop :=
  ∃ t t', t ≠ t' ∧ Writing y t sid ∧ Writing y t' sid

/-- The thread is in a registration on the stream: its watcher has not been inserted, or the
handler has not finished to say that it has failed. -/
def Registering (y : State T Mutex Act Server) (t : T) (sid : StreamId) : Prop :=
  ∃ a, .act a ∈ y.prog t ∧ a.registration = some sid

/-- When a registration on a stream begins, no watcher in the registry is on the stream, and no
thread is in a registration on it. -/
def OneWatcher (y : State T Mutex Act Server) : Locks.Event T Op → Prop
  | .call t op => y.prog t = [] → ∀ sid, op.registration = some sid →
      (∀ w, Registered y.data w → w.stream ≠ some sid) ∧ ∀ t', ¬ Registering y t' sid
  | .resume _ => True

/-- The stream that an event begins a registration on. -/
def registrationOf : Locks.Event T Op → Option StreamId
  | .call _ op => op.registration
  | .resume _ => none

/-- A registration that a thread is still to go through with, it is in. -/
theorem registering_of_rest {y : State T Mutex Act Server} {t : T} {i : Instr}
    {p : List Instr} (hp : y.prog t = i :: p) {a : Act} {sid : StreamId}
    (ha : .act a ∈ p) (hsid : a.registration = some sid) : Registering y t sid := by
  refine ⟨a, ?_, hsid⟩
  rw [hp]
  exact List.mem_cons_of_mem i ha

variable [DecidableEq T]

/-- Where no registration begins, the condition holds. -/
theorem along_of_no_registration {evs : List (Locks.Event T Op)}
    (h : ∀ e ∈ evs, registrationOf e = none) (y : State T Mutex Act Server) :
    Run.Along (Locks.step system) OneWatcher y evs := by
  induction evs generalizing y with
  | nil => trivial
  | cons e evs ih =>
    refine ⟨?_, ih (fun e' he' => h e' (List.mem_cons_of_mem e he')) _⟩
    have hnone := h e List.mem_cons_self
    cases e with
    | call t op =>
      intro _ sid hsid
      rw [show op.registration = none from hnone] at hsid
      cases hsid
    | resume t => trivial

/-! ### The invariant -/

/-- Whether the thread holds the lock of the registry. -/
def inside (y : State T Mutex Act Server) (t : T) : Bool := y.holder .watch = some t

/-- Each program has its shape, and a stream that a thread is registering a watcher on has no
other. -/
structure Separate (y : State T Mutex Act Server) : Prop where
  guarded : ∀ t, Guarded (hold (inside y t) y.data) (y.prog t)
  unique : ∀ t t' sid, Registering y t sid → Registering y t' sid → t = t'
  unwatched : ∀ t sid, Registering y t sid → ∀ w, Registered y.data w → w.stream ≠ some sid

theorem separate_start (env : Env) : Separate (start T env) where
  guarded _ := rfl
  unique _ _ _ h _ := by
    obtain ⟨a, ha, -⟩ := h
    cases ha
  unwatched _ _ h := by
    obtain ⟨a, ha, -⟩ := h
    cases ha

/-- A registration that a thread is in after a step, it was in before, or the step has begun it. -/
theorem registering_of_update {y : State T Mutex Act Server} {t t' : T} {sid : StreamId} {d : Server}
    {holder : Mutex → Option T} {p : List Instr}
    (h : Registering { data := d, holder := holder, prog := Function.update y.prog t p } t' sid) :
    (t' = t ∧ ∃ a, .act a ∈ p ∧ a.registration = some sid) ∨ (t' ≠ t ∧ Registering y t' sid) := by
  obtain ⟨a, ha, hsid⟩ := h
  dsimp only at ha
  by_cases ht : t' = t
  · subst ht
    rw [Function.update_self] at ha
    exact .inl ⟨rfl, a, ha, hsid⟩
  · rw [Function.update_of_ne ht] at ha
    exact .inr ⟨ht, a, ha, hsid⟩

/-- A step of a thread that begins no registration. The other threads hold the lock of the
registry as before, and if one does, the registry is as before. -/
theorem Separate.next {y : State T Mutex Act Server} (h : Separate y) {t : T} {d : Server}
    {holder : Mutex → Option T} {p : List Instr}
    (hself : Guarded (hold (decide (holder .watch = some t)) d) p)
    (hother : ∀ t', t' ≠ t → (holder .watch = some t' ↔ y.holder .watch = some t') ∧
      (y.holder .watch = some t' → Registered d = Registered y.data))
    (hp : ∀ a sid, .act a ∈ p → a.registration = some sid → Registering y t sid)
    (hd : ∀ w, Registered d w → Registered y.data w ∨ ∀ sid, w.stream = some sid →
      Registering y t sid ∧ ∀ a, .act a ∈ p → a.registration ≠ some sid) :
    Separate { data := d, holder := holder, prog := Function.update y.prog t p } := by
  have hbefore : ∀ t' sid,
      Registering { data := d, holder := holder, prog := Function.update y.prog t p } t' sid →
      Registering y t' sid := by
    intro t' sid ht'
    rcases registering_of_update ht' with ⟨rfl, a, ha, hsid⟩ | ⟨-, hreg⟩
    · exact hp a sid ha hsid
    · exact hreg
  refine ⟨fun t' => ?_, fun t' t'' sid ht' ht'' =>
    h.unique t' t'' sid (hbefore t' sid ht') (hbefore t'' sid ht''), fun t' sid ht' w hw hsid => ?_⟩
  · rw [inside]
    dsimp only
    by_cases ht : t' = t
    · subst ht
      rw [Function.update_self]
      exact hself
    · rw [Function.update_of_ne ht]
      have hg := h.guarded t'
      obtain ⟨hholder, hsame⟩ := hother t' ht
      rw [inside] at hg
      by_cases hin : y.holder .watch = some t'
      · rw [decide_eq_true (hholder.mpr hin), hold, hsame hin]
        rwa [decide_eq_true hin] at hg
      · rw [decide_eq_false fun hin' => hin (hholder.mp hin')]
        rwa [decide_eq_false hin] at hg
  · rcases hd w hw with hw | hw
    · exact h.unwatched t' sid (hbefore t' sid ht') w hw hsid
    · -- The registration of the watcher is the thread's, and it is over.
      obtain ⟨hreg, hover⟩ := hw sid hsid
      obtain rfl := h.unique t' t sid (hbefore t' sid ht') hreg
      rcases registering_of_update ht' with ⟨-, a, ha, hsid'⟩ | ⟨hne, -⟩
      · exact hover a ha hsid'
      · exact hne rfl

/-- Taking or leaving a lock that is not the registry's. -/
theorem Separate.elsewhere {y : State T Mutex Act Server} (h : Separate y) {t : T} {m : Mutex}
    (hm : m ≠ .watch) {i : Instr} {p : List Instr} (hp : y.prog t = i :: p)
    (hself : Guarded (hold (inside y t) y.data) p) (holder : Option T) :
    Separate { data := y.data, holder := Function.update y.holder m holder,
               prog := Function.update y.prog t p } := by
  have hsame : Function.update y.holder m holder .watch = y.holder .watch :=
    Function.update_of_ne (Ne.symm hm) ..
  refine h.next ?_ (fun t' _ => ?_) (fun a sid ha hsid => registering_of_rest hp ha hsid)
    fun w hw => .inl hw
  · rw [hsame]
    exact hself
  · rw [hsame]
    exact ⟨Iff.rfl, fun _ => rfl⟩

theorem Separate.moves {y z : State T Mutex Act Server} (h : Separate y) {t : T}
    (hm : Moves system y t z) : Separate z := by
  have hgt := h.guarded t
  rw [inside] at hgt
  cases hm with
  | @locked m p hp hfree =>
    rw [hp] at hgt
    by_cases hw : m = .watch
    · subst hw
      refine h.next ?_ (fun t' ht => ?_) (fun a sid ha hsid => registering_of_rest hp ha hsid)
        fun w hw => .inl hw
      · rw [Function.update_self, decide_eq_true rfl]
        exact (guarded_lock_watch.mp hgt).2.mono fun _ => False.elim
      · rw [Function.update_self, hfree]
        simp [Ne.symm ht]
    · exact h.elsewhere hw hp ((guarded_lock hw).mp hgt) (some t)
  | @unlocked m p hp =>
    rw [hp] at hgt
    by_cases hw : m = .watch
    · subst hw
      obtain ⟨hsome, hrest⟩ := guarded_unlock_watch.mp hgt
      have hown : y.holder .watch = some t := by
        by_contra hnot
        rw [decide_eq_false hnot] at hsome
        cases hsome
      refine h.next ?_ (fun t' ht => ?_) (fun a sid ha hsid => registering_of_rest hp ha hsid)
        fun w hw => .inl hw
      · rw [Function.update_self]
        exact hrest
      · rw [Function.update_self, hown]
        simp [Ne.symm ht]
    · exact h.elsewhere hw hp ((guarded_unlock hw).mp hgt) none
  | @acted a p hp =>
    rw [hp] at hgt
    obtain ⟨hself, hwithin⟩ := guarded_run hgt
    have hhead : ∀ sid, a.registration = some sid → Registering y t sid :=
      fun sid hsid => ⟨a, by rw [hp]; exact List.mem_cons_self, hsid⟩
    refine h.next hself (fun t' ht => ⟨Iff.rfl, fun hin => ?_⟩) (fun b sid hb hsid => ?_) fun w hw => ?_
    · -- Only a thread that holds the lock changes the registry.
      cases hchange : a.changesRegistry with
      | false => exact registered_run hchange y.data
      | true =>
        have hout : ¬ y.holder .watch = some t := by
          rw [hin]
          simpa using ht
        have hinWatch := hgt.1.inWatch
        rw [decide_eq_false hout, Act.inWatch_of_changesRegistry hchange] at hinWatch
        cases hinWatch
    · rcases List.mem_append.mp hb with hb | hb
      · rcases hwithin b hb with hnone | hsame
        · rw [hnone] at hsid
          cases hsid
        · exact hhead sid (hsame ▸ hsid)
      · exact registering_of_rest hp hb hsid
    · rcases registered_cases hw with hw | rfl
      · exact .inl hw
      · refine .inr fun sid hsid => ⟨hhead sid hsid, fun b hb hb' => ?_⟩
        have hnone := hgt.1.last rfl b hb
        rw [hb'] at hnone
        rcases hnone with hnone | hnone <;> cases hnone

theorem Separate.call {y : State T Mutex Act Server} (h : Separate y) {t : T} {op : Op}
    (hidle : y.prog t = []) (hone : OneWatcher y (.call t op)) :
    Separate { y with prog := Function.update y.prog t op.program } := by
  obtain ⟨hguarded, hwithin⟩ := guarded_program op
  -- A registration that is going on was going on before, or is the one that begins.
  have hcases : ∀ t' sid,
      Registering { y with prog := Function.update y.prog t op.program } t' sid →
      (t' = t ∧ op.registration = some sid) ∨ Registering y t' sid := by
    intro t' sid ht'
    rcases registering_of_update ht' with ⟨rfl, a, ha, hsid⟩ | ⟨-, hreg⟩
    · rcases hwithin a ha with hnone | hsame
      · rw [hnone] at hsid
        cases hsid
      · exact .inl ⟨rfl, hsame ▸ hsid⟩
    · exact .inr hreg
  refine ⟨fun t' => ?_, fun t' t'' sid ht' ht'' => ?_, fun t' sid ht' => ?_⟩
  · have hg := h.guarded t'
    dsimp only
    by_cases ht : t' = t
    · subst ht
      rw [Function.update_self]
      rw [hidle] at hg
      have hout : hold (inside y t') y.data = none := hg
      exact hout ▸ hguarded
    · rw [Function.update_of_ne ht]
      exact hg
  · rcases hcases t' sid ht' with ⟨rfl, hop⟩ | hreg
    · rcases hcases t'' sid ht'' with ⟨rfl, -⟩ | hreg
      · rfl
      · exact absurd hreg ((hone hidle sid hop).2 t'')
    · rcases hcases t'' sid ht'' with ⟨rfl, hop⟩ | hreg'
      · exact absurd hreg ((hone hidle sid hop).2 t')
      · exact h.unique t' t'' sid hreg hreg'
  · rcases hcases t' sid ht' with ⟨-, hop⟩ | hreg
    · exact (hone hidle sid hop).1
    · exact h.unwatched t' sid hreg

theorem Separate.step {y : State T Mutex Act Server} (h : Separate y) {e : Locks.Event T Op}
    (he : OneWatcher y e) : Separate (Locks.step system y e) := by
  rcases Locks.step_cases system y e with ⟨t, op, rfl, hidle, hz⟩ | ⟨t, -, hm⟩ | hz
  · rw [hz]
    exact h.call hidle he
  · exact h.moves hm
  · rw [hz]
    exact h

/-- A thread in a `Write` holds the lock of the registry, and its watcher is in the registry and
on the stream; or it is in a registration on the stream. -/
theorem Separate.writing {y : State T Mutex Act Server} (h : Separate y) {t : T} {sid : StreamId}
    (hw : Writing y t sid) :
    (y.holder .watch = some t ∧ ∃ w, Registered y.data w ∧ w.stream = some sid) ∨
      Registering y t sid := by
  obtain ⟨response, writer, p, hp⟩ := hw
  have hg := h.guarded t
  rw [hp] at hg
  have hmay := hg.1.write sid writer rfl
  cases writer with
  | notice w =>
    obtain ⟨hsid, Q, hQ, hQw⟩ := hmay
    rw [inside, hold] at hQ
    split_ifs at hQ with hin
    · cases hQ
      exact .inl ⟨of_decide_eq_true hin, w, hQw, hsid⟩
    · cases hQ
  | created w handler => exact .inr ⟨_, by rw [hp]; exact List.mem_cons_self, rfl⟩
  | historical w => exact .inr ⟨_, by rw [hp]; exact List.mem_cons_self, rfl⟩
  | refusal => exact .inr ⟨_, by rw [hp]; exact List.mem_cons_self, rfl⟩

theorem Separate.one_write {y : State T Mutex Act Server} (h : Separate y) (sid : StreamId) :
    ¬ TwoWrites y sid := by
  rintro ⟨t, t', hne, hw, hw'⟩
  rcases h.writing hw with ⟨hown, w, hreg, hsid⟩ | hreg
  · rcases h.writing hw' with ⟨hown', -⟩ | hreg'
    · rw [hown] at hown'
      exact hne (Option.some.inj hown')
    · exact h.unwatched t' sid hreg' w hreg hsid
  · rcases h.writing hw' with ⟨-, w, hw', hsid⟩ | hreg'
    · exact h.unwatched t sid hreg w hw' hsid
    · exact hne (h.unique t t' sid hreg hreg')

/-- **One writer per stream.** In a run of any number of threads in which no registration on a
stream begins while a watcher is registered on it, or another registration on it is going on, no
state that is reached has two writes to one stream in progress. -/
theorem one_writer {env : Env} {evs : List (Locks.Event T Op)}
    (h : Run.Along (Locks.step system) OneWatcher (start T env) evs) :
    ∀ pre, pre <+: evs → ∀ sid, ¬ TwoWrites (Locks.run system (start T env) pre) sid := by
  rintro pre ⟨post, rfl⟩ sid
  have hpre := ((Run.along_append (Locks.step system) OneWatcher _ pre post).mp h).1
  have hsep : Separate (Locks.run system (start T env) pre) :=
    Run.invariant_along (Locks.step system) (fun _ _ hy he => hy.step he) (separate_start env) hpre
  exact hsep.one_write sid

/-- The handler of stream 0 registers a watcher on `"k"`, and then another; while it writes that
the second is created, a put of `"k"` on another thread writes its notice to the first. -/
theorem two_writes : ¬ ∀ (env : Env) (evs : List (Locks.Event ℕ Op)) (sid : StreamId),
    ¬ TwoWrites (Locks.run system (start ℕ env) evs) sid := by
  intro h
  refine h .plain (.call 0 (.serve 0 (.createRequest { key := [107] })) ::
    (List.replicate 9 (.resume 0) ++ .call 0 (.serve 0 (.createRequest { key := [108] })) ::
      (List.replicate 4 (.resume 0) ++ .call 1 (.put [107] [118] 0) :: List.replicate 8 (.resume 1)))) 0
    ⟨0, 1, by decide, writing_iff.mpr ?_, writing_iff.mpr ?_⟩
  · decide
  · decide

/-- Two handlers register a watcher each, on their own streams, a step at a time in turn, and a
put notifies both. -/
theorem one_writer_streams :
    let evs : List (Locks.Event ℕ Op) :=
      .call 0 (.serve 0 (.createRequest { key := [107] })) ::
        .call 1 (.serve 1 (.createRequest { key := [107] })) ::
          ((List.replicate 12 [.resume 0, .resume 1]).flatten ++
            .call 2 (.put [107] [118] 0) :: List.replicate 24 (.resume 2))
    ∀ pre, pre <+: evs → ∀ sid, ¬ TwoWrites (Locks.run system (start ℕ .plain) pre) sid := by
  refine one_writer ⟨fun _ sid _ => ⟨?_, ?_⟩, fun _ sid hsid => ⟨?_, ?_⟩,
    along_of_no_registration (by decide) _⟩
  · rintro w ⟨i, hi⟩
    cases hi
  · rintro t' ⟨a, ha, -⟩
    cases ha
  · rintro w ⟨i, hi⟩
    cases hi
  · intro t' ht'
    cases hsid
    rcases registering_of_update (y := start ℕ .plain) ht' with ⟨-, a, ha, hsid⟩ | ⟨-, a, ha, -⟩
    · cases List.mem_singleton.mp ha
      cases hsid
    · cases ha

/-! ### The condition is sharp -/

/-- An operation that registers a watcher begins by taking an id for it. -/
theorem program_of_registration {op : Op} {sid : StreamId} (h : op.registration = some sid) :
    ∃ req handler, op.program = [.act (.takeId req (some sid) handler)] := by
  cases op with
  | registerWatcher req stream =>
    have hstream : stream = some sid := h
    exact ⟨req, false, by rw [hstream]; rfl⟩
  | serve sid' req =>
    cases req with
    | createRequest req =>
      cases h
      exact ⟨req, true, rfl⟩
    | _ => cases h
  | _ => cases h

/-- Five steps of a registration: its write of the created response has begun. -/
theorem run_registration {y : State T Mutex Act Server} {t : T} {op : Op} {sid : StreamId}
    (hidle : y.prog t = []) (hop : op.registration = some sid)
    (hfree : y.holder (.stream y.data.watchManager.nextWatchId) = none) :
    ∃ response writer, Locks.run system y (.call t op :: List.replicate 4 (.resume t)) =
      { data := takeId y.data,
        holder := Function.update y.holder (.stream y.data.watchManager.nextWatchId) (some t),
        prog := Function.update y.prog t [.act (.writing sid response writer)] } := by
  obtain ⟨req, handler, hprogram⟩ := program_of_registration hop
  refine ⟨createdAt (y.data.watchManager.makeWatcher req (some sid)) y.data.kvStore.revision,
    .created (y.data.watchManager.makeWatcher req (some sid)) handler, ?_⟩
  rw [run_call system hidle, show system.program op = _ from hprogram]
  simp only [List.replicate_succ, List.replicate_zero]
  rw [run_act system (Function.update_self ..), run_act system (Function.update_self ..),
    run_lock system (Function.update_self ..), run_act system (Function.update_self ..)]
  · simp only [Function.update_idem]
    rfl
  · exact hfree

/-- Five steps of a cancellation: its write of the canceled response has begun. -/
theorem run_cancellation {y : State T Mutex Act Server} {t : T} {i : Int} {w : Watcher} {sid : StreamId}
    (hidle : y.prog t = []) (hw : y.data.watchManager.watchers.find? i = some w)
    (hsid : w.stream = some sid) (hwatch : y.holder .watch = none)
    (hfree : y.holder (.stream w.watchId) = none) :
    let z := Locks.run system y (.call t (.cancelWatcher i) :: List.replicate 4 (.resume t))
    Writing z t sid ∧ ∀ t', t' ≠ t → z.prog t' = y.prog t' := by
  have hsend : (system.run (.cancelWatcher i) y.data).2 =
      [.lock (.stream w.watchId), .act (.write sid (canceledResponse y.data i) (.notice w)),
        .act (.eraseWatcher i)] := by
    simp only [system, Act.run, hw, sendCall, hsid, List.cons_append, List.nil_append]
  intro z
  have hz : z.prog = Function.update y.prog t
      [.act (.writing sid (canceledResponse y.data i) (.notice w)), .act (.eraseWatcher i),
        .unlock .watch] := by
    change (Locks.run system y _).prog = _
    rw [run_call system hidle]
    simp only [List.replicate_succ, List.replicate_zero]
    rw [run_lock system (Function.update_self ..), run_act system (Function.update_self ..)]
    · simp only [hsend, Function.update_idem]
      rw [run_lock system (Function.update_self ..), run_act system (Function.update_self ..)]
      · simp only [Function.update_idem]
        rfl
      · dsimp only
        rw [Function.update_of_ne (show Mutex.stream w.watchId ≠ .watch by simp)]
        exact hfree
    · exact hwatch
  refine ⟨⟨canceledResponse y.data i, .notice w, [.act (.eraseWatcher i), .unlock .watch], ?_⟩,
    fun t' ht' => ?_⟩
  · rw [hz, Function.update_self]
  · rw [hz, Function.update_of_ne ht']

/-- **The condition on registrations is sharp**: when no lock is held, a watcher on the stream is
in the registry and an idle thread registers another, a second idle thread that cancels the first
watcher can bring about two writes to the stream. -/
theorem two_writes_of_second {y : State T Mutex Act Server} (hfree : ∀ m, y.holder m = none)
    {t t' : T} (hne : t ≠ t') (ht : y.prog t = []) (ht' : y.prog t' = []) {op : Op} {sid : StreamId}
    (hop : op.registration = some sid) {i : Int} {w : Watcher}
    (hw : y.data.watchManager.watchers.find? i = some w) (hsid : w.stream = some sid)
    (hid : w.watchId ≠ y.data.watchManager.nextWatchId) :
    ∃ evs, TwoWrites (Locks.run system y evs) sid := by
  obtain ⟨response, writer, hregister⟩ := run_registration ht hop (hfree _)
  have hhold : ∀ m, m ≠ .stream y.data.watchManager.nextWatchId →
      (Locks.run system y (.call t op :: List.replicate 4 (.resume t))).holder m = none := by
    intro m hm
    rw [hregister]
    exact (Function.update_of_ne hm ..).trans (hfree m)
  obtain ⟨hwriting, hother⟩ := run_cancellation (t := t')
    (by rw [hregister]; exact (Function.update_of_ne (Ne.symm hne) ..).trans ht')
    (by rw [hregister]; exact hw) hsid (hhold _ (by simp)) (hhold _ (by simpa using hid))
  refine ⟨.call t op :: List.replicate 4 (.resume t) ++
    .call t' (.cancelWatcher i) :: List.replicate 4 (.resume t'), t, t', hne,
    ⟨response, writer, [], ?_⟩, ?_⟩
  · rw [run_append, hother t hne, hregister]
    exact Function.update_self ..
  · rw [run_append]
    exact hwriting

end Runs

end EtcdLite.Threads
