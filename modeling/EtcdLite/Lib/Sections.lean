import EtcdLite.Lib.Locks

/-!
# What a lock protects

A lock comes with a contract: what holds of the data while it is free, and what the threads that
do not hold it may do to the data in the meantime. A program keeps the contract (`Keeps`) when it
does no more than that outside the lock, and when under the lock, from what holds as it is taken,
it brings about what is to hold as it is released, whatever the other threads do. If every
program keeps the contract, then the data are as the contract says whenever the lock is free, in
any interleaving of any number of threads (`settled_run`).

What is to hold may depend on what has been done under the lock so far, in the order in which
threads took it. So the contract that the data are what the operations make of them, one after
another (`serial`), says that what is done under the lock is atomic. And a contract may ask that
something is so when a thread takes an action, under the lock or not (`Settled.must`).
-/

namespace Locks

variable {T M A D O L : Type*}

/-- The contract of a lock. -/
structure Contract (M A D L : Type*) where
  /-- What holds while the lock is free, after these operations. -/
  Inv : List L → D → Prop
  /-- The actions of the threads that do not hold the lock. -/
  Open : A → Prop
  /-- What they may do. -/
  Rely : D → D → Prop
  /-- The operations of a thread that takes the lock and goes on like this. -/
  begins : List (Instr M A) → List L
  /-- When an action may be taken. -/
  May : A → D → Prop
  /-- What is to be so when it is taken. -/
  Must : A → D → Prop := fun _ _ => True

/-- The other threads do not make it false. -/
def Contract.Stable (C : Contract M A D L) (P : D → Prop) : Prop := ∀ d d', P d → C.Rely d d' → P d'

/-- What a thread under the lock has brought about, and what it is to bring about. -/
structure Section (D : Type*) where
  goal : D → Prop
  now : D → Prop

variable (S : System M A D O) (C : Contract M A D L) (m : M)

/-- A program keeps the contract of the lock, which its thread does not hold, or holds. -/
inductive Keeps : Option (Section D) → List (Instr M A) → Prop
  | done : Keeps none []
  | acquire {p : List (Instr M A)}
      (hp : ∀ h, Keeps (some ⟨C.Inv (h ++ C.begins p), C.Inv h⟩) p) : Keeps none (.lock m :: p)
  | release {c : Section D} {p : List (Instr M A)} (hc : ∀ d, c.now d → c.goal d)
      (hp : Keeps none p) : Keeps (some c) (.unlock m :: p)
  | lock {c : Option (Section D)} {m' : M} {p : List (Instr M A)} (hm : m' ≠ m) (hp : Keeps c p) :
      Keeps c (.lock m' :: p)
  | unlock {c : Option (Section D)} {m' : M} {p : List (Instr M A)} (hm : m' ≠ m) (hp : Keeps c p) :
      Keeps c (.unlock m' :: p)
  | outside {a : A} {p : List (Instr M A)} (hopen : C.Open a)
      (ha : ∀ d, C.May a d → C.Rely d (S.run a d).1) (hmust : ∀ d, C.May a d → C.Must a d)
      (hp : ∀ d, C.May a d → Keeps none ((S.run a d).2 ++ p)) : Keeps none (.act a :: p)
  | inside {c : Section D} {a : A} {p : List (Instr M A)} (next : D → D → Prop)
      (hstable : ∀ d, C.Stable (next d)) (ha : ∀ d, c.now d → C.May a d → next d (S.run a d).1)
      (hmust : ∀ d, c.now d → C.May a d → C.Must a d)
      (hp : ∀ d, c.now d → C.May a d → Keeps (some ⟨c.goal, next d⟩) ((S.run a d).2 ++ p)) :
      Keeps (some c) (.act a :: p)

/-- A part of a program, which is begun with one thing brought about, and ended with another. -/
def Part (c c' : Option (Section D)) (q : List (Instr M A)) : Prop :=
  ∀ p, Keeps S C m c' p → Keeps S C m c (q ++ p)

/-- What a thread under the lock has brought about, the others do not make false. -/
def Contract.Steady (C : Contract M A D L) (c : Option (Section D)) : Prop :=
  ∀ s ∈ c, C.Stable s.now

/-- A part of a program that has nothing to do with the lock. -/
def Apart (q : List (Instr M A)) : Prop := ∀ c, C.Steady c → Part S C m c c q

variable {S C m} {c c' c'' : Option (Section D)} {q q' : List (Instr M A)}

theorem steady_none : C.Steady (none : Option (Section D)) := fun _ hs => nomatch hs

theorem steady_some {s : Section D} (h : C.Stable s.now) : C.Steady (some s) := by
  intro s' hs'
  rwa [← Option.mem_some_iff.mp hs']

/-- More than what is asked for may have been brought about. -/
theorem Keeps.mono {s : Section D} {P : D → Prop} {p : List (Instr M A)}
    (h : Keeps S C m (some s) p) (hP : ∀ d, P d → s.now d) : Keeps S C m (some ⟨s.goal, P⟩) p := by
  generalize hc : some s = c at h
  induction h with
  | done => cases hc
  | acquire _ => cases hc
  | outside _ _ _ _ => cases hc
  | release hgoal hp =>
    cases hc
    exact .release (fun d hd => hgoal d (hP d hd)) hp
  | lock hm _ ih =>
    cases hc
    exact .lock hm (ih rfl)
  | unlock hm _ ih =>
    cases hc
    exact .unlock hm (ih rfl)
  | inside next hstable ha hmust hp =>
    cases hc
    exact .inside next hstable (fun d hd => ha d (hP d hd)) (fun d hd => hmust d (hP d hd))
      fun d hd => hp d (hP d hd)

theorem part_nil : Part S C m c c [] := fun _ hp => hp

/-- What has been brought about says more than what is needed. -/
theorem part_weaken {goal P P' : D → Prop} (hP : ∀ d, P d → P' d) :
    Part S C m (some ⟨goal, P⟩) (some ⟨goal, P'⟩) [] := fun _ hp => hp.mono hP

theorem Part.append (h : Part S C m c c' q) (h' : Part S C m c' c'' q') :
    Part S C m c c'' (q ++ q') := by
  intro p hp
  rw [List.append_assoc]
  exact h _ (h' p hp)

/-- A loop. -/
theorem part_flatMap {α : Type*} {l : List α} {f : α → List (Instr M A)}
    (h : ∀ a ∈ l, Part S C m c c (f a)) : Part S C m c c (l.flatMap f) := by
  induction l with
  | nil => exact part_nil
  | cons a l ih =>
    rw [List.flatMap_cons]
    exact (h a List.mem_cons_self).append (ih fun a' ha' => h a' (List.mem_cons_of_mem a ha'))

theorem Part.keeps (h : Part S C m c none q) : Keeps S C m c q := by
  have hq := h [] .done
  rwa [List.append_nil] at hq

theorem Part.lock {m' : M} (hm : m' ≠ m) (h : Part S C m c c' q) :
    Part S C m c c' (.lock m' :: q) :=
  fun p hp => .lock hm (h p hp)

theorem Part.unlock {m' : M} (hm : m' ≠ m) (h : Part S C m c c' q) :
    Part S C m c c' (.unlock m' :: q) :=
  fun p hp => .unlock hm (h p hp)

/-- An action under the lock, and what it puts in front of the rest. -/
theorem Part.inside {s : Section D} {a : A} (next : D → D → Prop) (hstable : ∀ d, C.Stable (next d))
    (ha : ∀ d, s.now d → C.May a d → next d (S.run a d).1)
    (hmust : ∀ d, s.now d → C.May a d → C.Must a d)
    (hq : ∀ d, s.now d → C.May a d → Part S C m (some ⟨s.goal, next d⟩) c' (S.run a d).2) :
    Part S C m (some s) c' [.act a] :=
  fun p hp => .inside next hstable ha hmust fun d hd hmay => hq d hd hmay p hp

/-- An action that any thread may take. -/
structure Harmless (S : System M A D O) (C : Contract M A D L) (a : A) : Prop where
  opened : C.Open a
  rely : ∀ d, C.May a d → C.Rely d (S.run a d).1
  must : ∀ d, C.May a d → C.Must a d

/-- Such an action outside the lock, and what it puts in front of the rest. -/
theorem Part.outside {a : A} (ha : Harmless S C a)
    (hq : ∀ d, C.May a d → Part S C m none c' (S.run a d).2) : Part S C m none c' [.act a] :=
  fun p hp => .outside ha.opened ha.rely ha.must fun d hmay => hq d hmay p hp

/-- An action that leaves what has been brought about may be taken here. -/
def Allows (S : System M A D O) (C : Contract M A D L) (m : M) (c : Option (Section D)) (a : A) :
    Prop :=
  ∀ c', (∀ d, (∀ s ∈ c, s.now d) → C.May a d → Part S C m c c' (S.run a d).2) →
    Part S C m c c' [.act a]

/-- Under the lock it is allowed if others may take it, as far as the data go. -/
theorem allows_some {s : Section D} {a : A} (hs : C.Stable s.now)
    (ha : ∀ d, C.May a d → C.Rely d (S.run a d).1) (hmust : ∀ d, s.now d → C.May a d → C.Must a d) :
    Allows S C m (some s) a := by
  refine fun c' hq => .inside (fun _ => s.now) (fun _ => hs)
    (fun d hd hmay => hs d _ hd (ha d hmay)) hmust fun d hd hmay => hq d (fun s' hs' => ?_) hmay
  rwa [← Option.mem_some_iff.mp hs']

/-- A harmless action is allowed where the others do not make false what has been brought about. -/
theorem Harmless.allows {a : A} (ha : Harmless S C a) (hc : C.Steady c) : Allows S C m c a := by
  cases c with
  | none => exact fun c' hq => .outside ha fun d hmay => hq d nofun hmay
  | some s => exact allows_some (hc s rfl) ha.rely fun d _ hmay => ha.must d hmay

/-! ### Parts that have nothing to do with the lock -/

theorem apart_nil : Apart S C m [] := fun _ _ => part_nil

theorem Apart.append (h : Apart S C m q) (h' : Apart S C m q') : Apart S C m (q ++ q') :=
  fun c hc => (h c hc).append (h' c hc)

theorem Apart.lock {m' : M} (hm : m' ≠ m) (h : Apart S C m q) : Apart S C m (.lock m' :: q) :=
  fun c hc => .lock hm (h c hc)

theorem Apart.unlock {m' : M} (hm : m' ≠ m) (h : Apart S C m q) : Apart S C m (.unlock m' :: q) :=
  fun c hc => .unlock hm (h c hc)

/-- An action that any thread may take, and what it puts in front of the rest. -/
theorem apart_act {a : A} (ha : Harmless S C a)
    (hq : ∀ d, C.May a d → Apart S C m (S.run a d).2) : Apart S C m [.act a] :=
  fun c hc => ha.allows hc c fun d _ hmay => hq d hmay c hc

theorem Apart.cons {i : Instr M A} (hi : Apart S C m [i]) (h : Apart S C m q) :
    Apart S C m (i :: q) := hi.append h

/-- A section, from the lock to its release. -/
theorem part_section (hq : ∀ h p, Part S C m
      (some ⟨C.Inv (h ++ C.begins (q ++ .unlock m :: p)), C.Inv h⟩)
      (some ⟨C.Inv (h ++ C.begins (q ++ .unlock m :: p)),
        C.Inv (h ++ C.begins (q ++ .unlock m :: p))⟩) q) :
    Part S C m none none (.lock m :: q ++ [.unlock m]) := by
  intro p hp
  rw [List.append_assoc]
  exact .acquire fun h => hq h p _ (.release (fun _ hd => hd) hp)

/-! ### The invariant -/

section Runs

variable (S C m)

/-- The operations that a step begins under the lock: those of a thread that takes it. -/
def begun [DecidableEq M] (y : State T M A D) : Event T O → List L
  | .call _ _ => []
  | .resume t =>
    match y.prog t with
    | .lock m' :: p => if m' = m ∧ (y.holder m).isNone then C.begins p else []
    | _ => []

/-- The step calls an operation of this kind, or takes an action when it may be taken. -/
def Permitted (K : O → Prop) (y : State T M A D) : Event T O → Prop
  | .call _ o => K o
  | .resume t => ∀ a p, y.prog t = .act a :: p → C.May a y.data

/-- All is as the contract says, after these operations. -/
structure Settled (y : State T M A D) (h : List L) : Prop where
  free : y.holder m = none → C.Inv h y.data
  held : ∀ t, y.holder m = some t →
    ∃ P, C.Stable P ∧ P y.data ∧ Keeps S C m (some ⟨C.Inv h, P⟩) (y.prog t)
  others : ∀ t, y.holder m ≠ some t → Keeps S C m none (y.prog t)

variable {S C m} {y : State T M A D} {h : List L}

theorem settled_idle {d : D} (hd : C.Inv [] d) : Settled S C m (idle T M A d) [] where
  free := fun _ => hd
  held := fun _ ht => nomatch ht
  others := fun _ _ => .done

/-- A thread that is about to take an action without the lock may do so. -/
theorem Settled.opened {t : T} {a : A} {p : List (Instr M A)} (hy : Settled S C m y h)
    (hp : y.prog t = .act a :: p) (ht : y.holder m ≠ some t) : C.Open a := by
  have hkeeps := hy.others t ht
  rw [hp] at hkeeps
  cases hkeeps with
  | outside hopen _ _ _ => exact hopen

/-- When a thread is about to take an action, what is to be so is so. -/
theorem Settled.must {t : T} {a : A} {p : List (Instr M A)} (hy : Settled S C m y h)
    (hp : y.prog t = .act a :: p) (hmay : C.May a y.data) : C.Must a y.data := by
  by_cases hown : y.holder m = some t
  · obtain ⟨P, -, hP, hkeeps⟩ := hy.held t hown
    rw [hp] at hkeeps
    cases hkeeps with
    | inside _ _ _ hmust _ => exact hmust _ hP hmay
  · have hkeeps := hy.others t hown
    rw [hp] at hkeeps
    cases hkeeps with
    | outside _ _ hmust _ => exact hmust _ hmay

/-- A thread that has no program does not hold the lock. -/
theorem Settled.holder_ne {t : T} (hy : Settled S C m y h) (hp : y.prog t = []) :
    y.holder m ≠ some t := by
  intro ht
  obtain ⟨P, -, -, hkeeps⟩ := hy.held t ht
  rw [hp] at hkeeps
  cases hkeeps

section Moves

variable [DecidableEq T]

theorem Settled.call {t : T} {o : O} (hy : Settled S C m y h) (hp : y.prog t = [])
    (ho : Keeps S C m none (S.program o)) :
    Settled S C m { y with prog := Function.update y.prog t (S.program o) } h where
  free := hy.free
  held := by
    intro t' ht'
    have hne : t' ≠ t := by
      rintro rfl
      exact hy.holder_ne hp ht'
    dsimp only
    rw [Function.update_of_ne hne]
    exact hy.held t' ht'
  others := by
    intro t' ht'
    dsimp only
    rw [Function.update_apply]
    split_ifs
    · exact ho
    · exact hy.others t' ht'

/-- A thread goes on, and the lock and the data are as before. -/
theorem Settled.goesOn {t : T} {p : List (Instr M A)} {holder : M → Option T}
    (hy : Settled S C m y h) (hholder : holder m = y.holder m)
    (hp : ∀ c, Keeps S C m c (y.prog t) → Keeps S C m c p) :
    Settled S C m { y with holder := holder, prog := Function.update y.prog t p } h where
  free := fun hfree => hy.free (hholder.symm.trans hfree)
  held := by
    intro t' ht'
    obtain ⟨P, hstable, hP, hkeeps⟩ := hy.held t' (hholder.symm.trans ht')
    refine ⟨P, hstable, hP, ?_⟩
    dsimp only
    rw [Function.update_apply]
    split_ifs with htt
    · subst htt
      exact hp _ hkeeps
    · exact hkeeps
  others := by
    intro t' ht'
    have hkeeps := hy.others t' fun hold => ht' (hholder.trans hold)
    dsimp only
    rw [Function.update_apply]
    split_ifs with htt
    · subst htt
      exact hp _ hkeeps
    · exact hkeeps

/-- A thread takes an action. -/
theorem Settled.acts {t : T} {a : A} {p : List (Instr M A)} (hy : Settled S C m y h)
    (hp : y.prog t = .act a :: p) (hmay : C.May a y.data) (hstable : C.Stable (C.Inv h)) :
    Settled S C m { y with data := (S.run a y.data).1,
                           prog := Function.update y.prog t ((S.run a y.data).2 ++ p) } h := by
  by_cases hown : y.holder m = some t
  · obtain ⟨P, -, hP, hkeeps⟩ := hy.held t hown
    rw [hp] at hkeeps
    cases hkeeps with
    | inside next hnext ha _ hrest =>
      refine ⟨fun hfree => ?_, fun t' ht' => ?_, fun t' ht' => ?_⟩
      · cases hfree.symm.trans hown
      · obtain rfl : t = t' := Option.some.inj (hown.symm.trans ht')
        refine ⟨next y.data, hnext _, ha _ hP hmay, ?_⟩
        dsimp only
        rw [Function.update_self]
        exact hrest _ hP hmay
      · have hne : t' ≠ t := by
          rintro rfl
          exact ht' hown
        dsimp only
        rw [Function.update_of_ne hne]
        exact hy.others t' ht'
  · have hkeeps := hy.others t hown
    rw [hp] at hkeeps
    cases hkeeps with
    | outside _ ha _ hrest =>
      have hrely := ha _ hmay
      refine ⟨fun hfree => hstable _ _ (hy.free hfree) hrely, fun t' ht' => ?_, fun t' ht' => ?_⟩
      · have hne : t' ≠ t := by
          rintro rfl
          exact hown ht'
        obtain ⟨P, hP, hnow, hrest'⟩ := hy.held t' ht'
        refine ⟨P, hP, hP _ _ hnow hrely, ?_⟩
        dsimp only
        rw [Function.update_of_ne hne]
        exact hrest'
      · dsimp only
        rw [Function.update_apply]
        split_ifs
        · exact hrest _ hmay
        · exact hy.others t' ht'

variable [DecidableEq M]

/-- A thread takes the lock. -/
theorem Settled.acquires {t : T} {p : List (Instr M A)} (hy : Settled S C m y h)
    (hp : y.prog t = .lock m :: p) (hfree : y.holder m = none) (hstable : C.Stable (C.Inv h)) :
    Settled S C m { y with holder := Function.update y.holder m (some t),
                           prog := Function.update y.prog t p } (h ++ C.begins p) where
  free := by simp
  held := by
    intro t' ht'
    dsimp only at ht'
    rw [Function.update_self, Option.some.injEq] at ht'
    subst ht'
    have hkeeps := hy.others t (by simp [hfree])
    rw [hp] at hkeeps
    refine ⟨C.Inv h, hstable, hy.free hfree, ?_⟩
    dsimp only
    rw [Function.update_self]
    cases hkeeps with
    | acquire hp => exact hp h
    | lock hm _ => exact absurd rfl hm
  others := by
    intro t' ht'
    dsimp only at ht'
    rw [Function.update_self, ne_eq, Option.some.injEq] at ht'
    dsimp only
    rw [Function.update_of_ne (Ne.symm ht')]
    exact hy.others t' (by simp [hfree])

/-- A thread releases the lock. -/
theorem Settled.releases {t : T} {p : List (Instr M A)} (hy : Settled S C m y h)
    (hp : y.prog t = .unlock m :: p) :
    Settled S C m { y with holder := Function.update y.holder m none,
                           prog := Function.update y.prog t p } h := by
  have hown : y.holder m = some t := by
    by_contra hne
    have hkeeps := hy.others t hne
    rw [hp] at hkeeps
    cases hkeeps with
    | unlock hm _ => exact hm rfl
  obtain ⟨P, -, hP, hkeeps⟩ := hy.held t hown
  rw [hp] at hkeeps
  obtain ⟨hgoal, hrest⟩ : (∀ d, P d → C.Inv h d) ∧ Keeps S C m none p := by
    cases hkeeps with
    | release hgoal hrest => exact ⟨hgoal, hrest⟩
    | unlock hm _ => exact absurd rfl hm
  refine ⟨fun _ => hgoal _ hP, fun t' ht' => ?_, fun t' _ => ?_⟩
  · simp at ht'
  · dsimp only
    rw [Function.update_apply]
    split_ifs with htt
    · exact hrest
    · exact hy.others t' fun ht' => htt (Option.some.inj (ht'.symm.trans hown))

/-- **A step keeps the contract.** -/
theorem Settled.step {K : O → Prop} (hy : Settled S C m y h) (hstable : ∀ h, C.Stable (C.Inv h))
    (hprogram : ∀ o, K o → Keeps S C m none (S.program o)) {e : Event T O}
    (he : Permitted C K y e) : Settled S C m (step S y e) (h ++ begun C m y e) := by
  cases e with
  | call t o =>
    rw [Locks.step, begun, List.append_nil]
    split_ifs with hp
    · exact hy.call (List.isEmpty_iff.mp hp) (hprogram o he)
    · exact hy
  | resume t =>
    rw [Locks.step, advance, begun]
    split
    · next hp =>
      simp only [hp, List.append_nil]
      exact hy
    · next m' p hp =>
      simp only [hp]
      by_cases hm : m' = m
      · subst hm
        by_cases hfree : (y.holder m').isNone
        · simp only [hfree, and_self, if_true]
          exact hy.acquires hp (Option.isNone_iff_eq_none.mp hfree) (hstable h)
        · simp only [hfree, and_false, if_false, List.append_nil, Bool.false_eq_true]
          exact hy
      · simp only [hm, false_and, if_false, List.append_nil]
        split_ifs
        · refine hy.goesOn (Function.update_of_ne (Ne.symm hm) ..) fun c hkeeps => ?_
          rw [hp] at hkeeps
          cases hkeeps with
          | acquire _ => exact absurd rfl hm
          | lock _ hrest => exact hrest
        · exact hy
    · next m' p hp =>
      simp only [hp, List.append_nil]
      by_cases hm : m' = m
      · subst hm
        exact hy.releases hp
      · refine hy.goesOn (Function.update_of_ne (Ne.symm hm) ..) fun c hkeeps => ?_
        rw [hp] at hkeeps
        cases hkeeps with
        | release _ _ => exact absurd rfl hm
        | unlock _ hrest => exact hrest
    · next a p hp =>
      simp only [hp, List.append_nil]
      exact hy.acts hp (he a p hp) (hstable h)

/-- **In any interleaving of any number of threads, the data are as the contract says.** -/
theorem settled_run {K : O → Prop} (hstable : ∀ h, C.Stable (C.Inv h))
    (hprogram : ∀ o, K o → Keeps S C m none (S.program o)) {d : D} (hd : C.Inv [] d)
    {evs : List (Event T O)} (hevs : Run.Along (Locks.step S) (Permitted C K) (idle T M A d) evs) :
    Settled S C m (run S (idle T M A d) evs)
      (Run.log (Locks.step S) (begun C m) (idle T M A d) evs) :=
  Run.invariant_log_along (Locks.step S) (fun _ _ _ hy he => hy.step hstable hprogram he)
    (settled_idle hd) hevs

end Moves

end Runs

/-! ### Atomic sections -/

/-- The contract that a part of the data, the others leaving it alone, is what the operations make
of it one after another. -/
def serial {V : Type*} (view : D → V) (exec : D → L → D) (Open : A → Prop)
    (begins : List (Instr M A) → List L) (d : D) : Contract M A D L where
  Inv := fun h d' => view d' = view (Run.final exec d h)
  Rely := fun d d' => view d' = view d
  Open := Open
  begins := begins
  May := fun _ _ => True

section Serial

variable {V : Type*} {view : D → V} {exec : D → L → D} {Open : A → Prop}
  {begins : List (Instr M A) → List L} {d₀ : D} {S : System M A D O} {m : M}

theorem serial_stable (x : V) : (serial view exec Open begins d₀).Stable fun d => view d = x :=
  fun _ _ hx hd => hd.trans hx

/-- A section of the program, in which the part of the data goes from one state to another. -/
abbrev Takes (S : System M A D O) (C : Contract M A D L) (m : M) (view : D → V) (goal : D → Prop)
    (x x' : V) (q : List (Instr M A)) : Prop :=
  Part S C m (some ⟨goal, fun d => view d = x⟩) (some ⟨goal, fun d => view d = x'⟩) q

/-- **What is done under the lock is atomic**: in any interleaving of any number of threads, when
the lock is free, the part of the data is what the operations make of it, one after another in the
order in which their threads took the lock; and only the thread that holds it changes it. -/
theorem serial_run [DecidableEq T] [DecidableEq M]
    (hprogram : ∀ o, Keeps S (serial view exec Open begins d₀) m none (S.program o))
    (evs : List (Event T O)) :
    Settled S (serial view exec Open begins d₀) m (run S (idle T M A d₀) evs)
      (Run.log (Locks.step S) (begun (serial view exec Open begins d₀) m) (idle T M A d₀) evs) :=
  settled_run (K := fun _ => True) (fun _ => serial_stable _) (fun o _ => hprogram o) rfl
    (Run.along_of_forall _ (fun _ e => by cases e <;> simp [Permitted, serial]) _ evs)

end Serial

end Locks
