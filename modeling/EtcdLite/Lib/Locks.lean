import EtcdLite.Lib.Run
import Mathlib.Logic.Function.Basic
import Mathlib.Logic.Relation
import Mathlib.Order.Lattice

/-!
# Threads and locks

Threads that share data and take non-recursive locks. What a thread has still to do is a list
of instructions: take a lock, release one, or act on the data. An action may put further
instructions in front of the rest, so a call, a branch or a loop over what is read is an action
too.

If each thread takes locks in the order of a rank only (`Ordered`), no thread waits for itself,
no threads wait for each other in a cycle, and as long as a thread is unfinished some thread can
step. A program that is run while nobody else steps does what it says (`Does`, `drive`).
-/

namespace Locks

variable {T M A D O : Type*}

/-- An instruction of a thread. -/
inductive Instr (M A : Type*) where
  | lock (m : M)
  | unlock (m : M)
  | act (a : A)

/-- What the actions do, and put in front of the rest; and the program of each operation. -/
structure System (M A D O : Type*) where
  run : A → D → D × List (Instr M A)
  program : O → List (Instr M A)

/-- The data, which thread holds each lock, and what each thread has still to do. -/
structure State (T M A D : Type*) where
  data : D
  holder : M → Option T
  prog : T → List (Instr M A)

/-- What can happen next: an idle thread calls an operation, or a thread goes on. -/
inductive Event (T O : Type*) where
  | call (t : T) (o : O)
  | resume (t : T)

/-- No lock held, and no thread running. -/
def idle (T M A : Type*) {D : Type*} (d : D) : State T M A D :=
  { data := d, holder := fun _ => none, prog := fun _ => [] }

section Step

variable [DecidableEq T] [DecidableEq M] (S : System M A D O)

/-- A thread goes on by one instruction. It stays where it is if the lock is held. -/
def advance (y : State T M A D) (t : T) : State T M A D :=
  match y.prog t with
  | [] => y
  | .lock m :: p =>
    if (y.holder m).isNone then
      { y with holder := Function.update y.holder m (some t), prog := Function.update y.prog t p }
    else y
  | .unlock m :: p =>
    { y with holder := Function.update y.holder m none, prog := Function.update y.prog t p }
  | .act a :: p =>
    { y with data := (S.run a y.data).1, prog := Function.update y.prog t ((S.run a y.data).2 ++ p) }

/-- One step. -/
def step (y : State T M A D) : Event T O → State T M A D
  | .call t o =>
    if (y.prog t).isEmpty then { y with prog := Function.update y.prog t (S.program o) } else y
  | .resume t => advance S y t

/-- The state a run leads to. -/
abbrev run (y : State T M A D) (evs : List (Event T O)) : State T M A D :=
  Run.final (step S) y evs

theorem run_append (y : State T M A D) (evs evs' : List (Event T O)) :
    run S y (evs ++ evs') = run S (run S y evs) evs' := Run.final_append ..

/-! The first step of a run. -/

theorem run_call {y : State T M A D} {t : T} (hp : y.prog t = []) (o : O) (evs : List (Event T O)) :
    run S y (.call t o :: evs) =
      run S { y with prog := Function.update y.prog t (S.program o) } evs := by
  rw [run, Run.final_cons, step, hp]
  rfl

theorem run_lock {y : State T M A D} {t : T} {m : M} {p : List (Instr M A)}
    (hp : y.prog t = .lock m :: p) (hm : y.holder m = none) (evs : List (Event T O)) :
    run S y (.resume t :: evs) =
      run S { y with holder := Function.update y.holder m (some t),
                     prog := Function.update y.prog t p } evs := by
  rw [run, Run.final_cons, step, advance, hp]
  simp only [hm, Option.isNone_none, if_true]

theorem run_unlock {y : State T M A D} {t : T} {m : M} {p : List (Instr M A)}
    (hp : y.prog t = .unlock m :: p) (evs : List (Event T O)) : run S y (.resume t :: evs) =
      run S { y with holder := Function.update y.holder m none,
                     prog := Function.update y.prog t p } evs := by
  rw [run, Run.final_cons, step, advance, hp]

theorem run_act {y : State T M A D} {t : T} {a : A} {p : List (Instr M A)}
    (hp : y.prog t = .act a :: p) (evs : List (Event T O)) : run S y (.resume t :: evs) =
      run S { y with data := (S.run a y.data).1,
                     prog := Function.update y.prog t ((S.run a y.data).2 ++ p) } evs := by
  rw [run, Run.final_cons, step, advance, hp]

/-- What a step of a thread can be. -/
inductive Moves (y : State T M A D) (t : T) : State T M A D → Prop
  | locked {m : M} {p : List (Instr M A)} (hp : y.prog t = .lock m :: p) (hm : y.holder m = none) :
      Moves y t { y with holder := Function.update y.holder m (some t),
                         prog := Function.update y.prog t p }
  | unlocked {m : M} {p : List (Instr M A)} (hp : y.prog t = .unlock m :: p) :
      Moves y t { y with holder := Function.update y.holder m none,
                         prog := Function.update y.prog t p }
  | acted {a : A} {p : List (Instr M A)} (hp : y.prog t = .act a :: p) :
      Moves y t { y with data := (S.run a y.data).1,
                         prog := Function.update y.prog t ((S.run a y.data).2 ++ p) }

/-- A thread that goes on takes a step, or is where it was. -/
theorem advance_cases (y : State T M A D) (t : T) :
    Moves S y t (advance S y t) ∨ advance S y t = y := by
  rw [advance]
  split
  · exact .inr rfl
  · next m p hp =>
    split_ifs with hm
    · exact .inl (.locked hp (Option.isNone_iff_eq_none.mp hm))
    · exact .inr rfl
  · next m p hp => exact .inl (.unlocked hp)
  · next a p hp => exact .inl (.acted hp)

/-- What a step can be: a call by an idle thread, a step of a thread, or nothing. -/
theorem step_cases (y : State T M A D) (e : Event T O) :
    (∃ t o, e = .call t o ∧ y.prog t = [] ∧
        step S y e = { y with prog := Function.update y.prog t (S.program o) }) ∨
      (∃ t, e = .resume t ∧ Moves S y t (step S y e)) ∨ step S y e = y := by
  cases e with
  | call t o =>
    rw [step]
    split_ifs with hp
    · exact .inl ⟨t, o, rfl, List.isEmpty_iff.mp hp, rfl⟩
    · exact .inr (.inr rfl)
  | resume t =>
    rcases advance_cases S y t with h | h
    · exact .inr (.inl ⟨t, rfl, h⟩)
    · exact .inr (.inr h)

end Step

/-! ### Waiting -/

/-- The next instruction of a thread is to take the lock. -/
def Wants (y : State T M A D) (t : T) (m : M) : Prop := ∃ p, y.prog t = .lock m :: p

/-- A thread waits for a lock that another holds, or that it holds itself. -/
def WaitsFor (y : State T M A D) (t t' : T) : Prop := ∃ m, Wants y t m ∧ y.holder m = some t'

/-- A thread can step: it has something to do, and does not wait. -/
def CanStep (y : State T M A D) (t : T) : Prop := y.prog t ≠ [] ∧ ∀ t', ¬ WaitsFor y t t'

theorem Wants.unique {y : State T M A D} {t : T} {m m' : M} (h : Wants y t m) (h' : Wants y t m') :
    m = m' := by
  obtain ⟨p, hp⟩ := h
  obtain ⟨p', hp'⟩ := h'
  rw [hp] at hp'
  cases hp'
  rfl

/-- A thread that can step takes one. -/
theorem CanStep.moves [DecidableEq T] [DecidableEq M] (S : System M A D O) {y : State T M A D} {t : T}
    (h : CanStep y t) : Moves S y t (advance S y t) := by
  obtain ⟨hne, hfree⟩ := h
  rw [advance]
  split
  · next hp => exact absurd hp hne
  · next m p hp =>
    have hm : y.holder m = none :=
      Option.eq_none_iff_forall_ne_some.mpr fun t' ht' => hfree t' ⟨m, ⟨p, hp⟩, ht'⟩
    rw [if_pos (Option.isNone_iff_eq_none.mpr hm)]
    exact .locked hp hm
  · next m p hp => exact .unlocked hp
  · next a p hp => exact .acted hp

/-! ### The order of a rank -/

section Ordered

variable {R : Type*} [LinearOrder R] (S : System M A D O) (rank : M → R)

/-- A program for a thread that holds some locks, the last taken first: it takes a lock of a rank
above those it holds only, releases the last it took, and ends with none. -/
inductive Ordered : List M → List (Instr M A) → Prop
  | done : Ordered [] []
  | lock {held : List M} {m : M} {p : List (Instr M A)} (hm : ∀ m' ∈ held, rank m' < rank m)
      (hp : Ordered (m :: held) p) : Ordered held (.lock m :: p)
  | unlock {held : List M} {m : M} {p : List (Instr M A)} (hp : Ordered held p) :
      Ordered (m :: held) (.unlock m :: p)
  | act {held : List M} {a : A} {p : List (Instr M A)} (hp : ∀ d, Ordered held ((S.run a d).2 ++ p)) :
      Ordered held (.act a :: p)

/-- A part of a program, which is begun with some locks and ended with others. -/
def Block (held held' : List M) (q : List (Instr M A)) : Prop :=
  ∀ p, Ordered S rank held' p → Ordered S rank held (q ++ p)

variable {S rank} {held held' held'' : List M} {q q' : List (Instr M A)}

theorem Block.ordered (h : Block S rank [] [] q) : Ordered S rank [] q := by
  have hq := h [] .done
  rwa [List.append_nil] at hq

theorem block_nil : Block S rank held held [] := fun _ hp => hp

theorem Block.append (h : Block S rank held held' q) (h' : Block S rank held' held'' q') :
    Block S rank held held'' (q ++ q') := by
  intro p hp
  rw [List.append_assoc]
  exact h _ (h' p hp)

theorem Block.lock {m : M} (hm : ∀ m' ∈ held, rank m' < rank m)
    (h : Block S rank (m :: held) held' q) : Block S rank held held' (.lock m :: q) :=
  fun p hp => .lock hm (h p hp)

theorem Block.unlock {m : M} (h : Block S rank held held' q) :
    Block S rank (m :: held) held' (.unlock m :: q) :=
  fun p hp => .unlock (h p hp)

/-- An action, and what it puts in front of the rest. -/
theorem Block.act {a : A} (ha : ∀ d, Block S rank held held' (S.run a d).2)
    (h : Block S rank held' held'' q) : Block S rank held held'' (.act a :: q) :=
  fun p hp => .act fun d => ha d _ (h p hp)

theorem block_flatMap {α : Type*} {l : List α} {f : α → List (Instr M A)}
    (h : ∀ a ∈ l, Block S rank held held (f a)) : Block S rank held held (l.flatMap f) := by
  induction l with
  | nil => exact block_nil
  | cons a l ih =>
    rw [List.flatMap_cons]
    refine (h a List.mem_cons_self).append (ih fun a' ha' => h a' (List.mem_cons_of_mem a ha'))

/-! ### The invariant -/

variable (S rank)

/-- A thread holds these locks, the last taken first, and goes on in the order of the rank. -/
structure Holds (y : State T M A D) (t : T) (held : List M) : Prop where
  nodup : held.Nodup
  ordered : Ordered S rank held (y.prog t)
  holder : ∀ m, y.holder m = some t ↔ m ∈ held

/-- Each thread takes locks in the order of the rank. -/
def Disciplined (y : State T M A D) : Prop := ∀ t, ∃ held, Holds S rank y t held

theorem disciplined_idle (d : D) : Disciplined S rank (idle T M A d) :=
  fun _ => ⟨[], List.nodup_nil, .done, by simp [idle]⟩

variable {S rank}

/-- A thread that neither steps nor loses a lock is as before. -/
theorem Holds.other {y z : State T M A D} {t' : T} {held : List M} (h : Holds S rank y t' held)
    (hp : z.prog t' = y.prog t') (hm : ∀ m, z.holder m = some t' ↔ y.holder m = some t') :
    Holds S rank z t' held where
  nodup := h.nodup
  ordered := by
    rw [hp]
    exact h.ordered
  holder := fun m => (hm m).trans (h.holder m)

/-- A thread that neither had the mutex nor has it now, has the mutexes that it had. -/
theorem holder_update [DecidableEq M] {holder : M → Option T} {m : M} {o : Option T} {t : T}
    (hbefore : holder m ≠ some t) (hafter : o ≠ some t) (m' : M) :
    Function.update holder m o m' = some t ↔ holder m' = some t := by
  rw [Function.update_apply]
  split_ifs with hmm
  · rw [hmm]
    exact iff_of_false hafter hbefore
  · rfl

/-- A thread that is about to release a lock holds it. -/
theorem Disciplined.holder_eq {y : State T M A D} (h : Disciplined S rank y) {t : T} {m : M}
    {p : List (Instr M A)} (hp : y.prog t = .unlock m :: p) : y.holder m = some t := by
  obtain ⟨held, hheld⟩ := h t
  have hord := hheld.ordered
  rw [hp] at hord
  cases hord
  exact (hheld.holder m).mpr List.mem_cons_self

/-! ### Steps -/

section Steps

variable [DecidableEq T]

theorem Disciplined.call {y : State T M A D} (h : Disciplined S rank y) {t : T} (hidle : y.prog t = [])
    {p : List (Instr M A)} (hp : Ordered S rank [] p) :
    Disciplined S rank { y with prog := Function.update y.prog t p } := by
  intro t'
  obtain ⟨held, hheld⟩ := h t'
  by_cases ht : t' = t
  · subst ht
    have hnil : held = [] := by
      have hord := hheld.ordered
      rw [hidle] at hord
      cases hord
      rfl
    subst hnil
    refine ⟨[], List.nodup_nil, ?_, hheld.holder⟩
    dsimp only
    rw [Function.update_self]
    exact hp
  · exact ⟨held, hheld.other (Function.update_of_ne ht ..) fun m => Iff.rfl⟩

variable [DecidableEq M]

/-- **A step keeps the order.** -/
theorem Disciplined.moves {y z : State T M A D} (h : Disciplined S rank y) {t : T}
    (hm : Moves S y t z) : Disciplined S rank z := by
  intro t'
  obtain ⟨held, hheld⟩ := h t'
  have hord := hheld.ordered
  cases hm with
  | @locked m p hp hfree =>
    by_cases ht : t' = t
    · subst ht
      rw [hp] at hord
      cases hord with
      | lock hrank hrest =>
        have hnew : m ∉ held := fun hmem => lt_irrefl _ (hrank m hmem)
        refine ⟨m :: held, List.nodup_cons.mpr ⟨hnew, hheld.nodup⟩, ?_, fun m' => ?_⟩
        · dsimp only
          rw [Function.update_self]
          exact hrest
        · dsimp only
          rw [List.mem_cons, Function.update_apply]
          split_ifs with hmm
          · simp [hmm]
          · simp [hmm, hheld.holder m']
    · have hbefore : y.holder m ≠ some t' := by simp [hfree]
      have hafter : some t ≠ some t' := by simp [Ne.symm ht]
      exact ⟨held, hheld.other (Function.update_of_ne ht ..) (holder_update hbefore hafter)⟩
  | @unlocked m p hp =>
    by_cases ht : t' = t
    · subst ht
      rw [hp] at hord
      cases hord with
      | @unlock held _ _ hrest =>
        obtain ⟨hnew, hnodup⟩ := List.nodup_cons.mp hheld.nodup
        refine ⟨held, hnodup, ?_, fun m' => ?_⟩
        · dsimp only
          rw [Function.update_self]
          exact hrest
        · dsimp only
          rw [Function.update_apply]
          split_ifs with hmm
          · simp [hmm, hnew]
          · simp [hheld.holder m', hmm]
    · have hbefore : y.holder m ≠ some t' := by simp [h.holder_eq hp, Ne.symm ht]
      exact ⟨held, hheld.other (Function.update_of_ne ht ..) (holder_update hbefore nofun)⟩
  | @acted a p hp =>
    by_cases ht : t' = t
    · subst ht
      rw [hp] at hord
      cases hord with
      | act hrest =>
        refine ⟨held, hheld.nodup, ?_, hheld.holder⟩
        dsimp only
        rw [Function.update_self]
        exact hrest y.data
    · exact ⟨held, hheld.other (Function.update_of_ne ht ..) fun m => Iff.rfl⟩

theorem Disciplined.step (hprogram : ∀ o, Ordered S rank [] (S.program o)) {y : State T M A D}
    (h : Disciplined S rank y) (e : Event T O) : Disciplined S rank (step S y e) := by
  rcases step_cases S y e with ⟨t, o, -, hidle, hz⟩ | ⟨t, -, hm⟩ | hz
  · rw [hz]
    exact h.call hidle (hprogram o)
  · exact h.moves hm
  · rw [hz]
    exact h

/-- **Any number of threads, each running any operations, in any interleaving, keep the order.** -/
theorem disciplined_run (hprogram : ∀ o, Ordered S rank [] (S.program o)) (d : D)
    (evs : List (Event T O)) : Disciplined S rank (run S (idle T M A d) evs) :=
  Run.invariant (Locks.step S) (fun _ e h => h.step hprogram e) (disciplined_idle S rank d) evs

end Steps

/-! ### No deadlock -/

section Deadlock

variable {y : State T M A D}

/-- What a thread holds is of a lower rank than what it wants. -/
theorem rank_lt_of_wants (h : Disciplined S rank y) {t : T} {m m' : M} (hw : Wants y t m)
    (hm' : y.holder m' = some t) : rank m' < rank m := by
  obtain ⟨held, hheld⟩ := h t
  obtain ⟨p, hp⟩ := hw
  have hord := hheld.ordered
  rw [hp] at hord
  cases hord with
  | lock hrank _ => exact hrank m' ((hheld.holder m').mp hm')

/-- At the end of a chain of waiting threads, a lock is held of no lower rank than what the first
wants. -/
theorem rank_le_of_chain (h : Disciplined S rank y) {t t' : T} {m : M} (hw : Wants y t m)
    (hchain : Relation.TransGen (WaitsFor y) t t') :
    ∃ m', y.holder m' = some t' ∧ rank m ≤ rank m' := by
  induction hchain with
  | single hwait =>
    obtain ⟨m', hw', hm'⟩ := hwait
    exact ⟨m', hm', (congrArg rank (hw.unique hw')).le⟩
  | tail _ hwait ih =>
    obtain ⟨m', hm', hle⟩ := ih
    obtain ⟨m'', hw'', hm''⟩ := hwait
    exact ⟨m'', hm'', hle.trans (rank_lt_of_wants h hw'' hm').le⟩

/-- **No thread waits for itself, directly or along a chain of others.** -/
theorem no_cycle (h : Disciplined S rank y) (t : T) : ¬ Relation.TransGen (WaitsFor y) t t := by
  intro hcycle
  obtain ⟨m, hw⟩ : ∃ m, Wants y t m := by
    obtain ⟨t', ⟨m, hw, -⟩, -⟩ := Relation.TransGen.head'_iff.mp hcycle
    exact ⟨m, hw⟩
  obtain ⟨m', hm', hle⟩ := rank_le_of_chain h hw hcycle
  exact absurd (rank_lt_of_wants h hw hm') (not_lt.mpr hle)

/-- A thread that holds a lock has something to do. -/
theorem unfinished_of_holds (h : Disciplined S rank y) {t : T} {m : M} (hm : y.holder m = some t) :
    y.prog t ≠ [] := by
  intro hnil
  obtain ⟨held, hheld⟩ := h t
  have hord := hheld.ordered
  rw [hnil] at hord
  cases hord
  cases (hheld.holder m).mp hm

/-- **As long as a thread is unfinished, some thread can step**: from a waiting thread, go to the
thread that holds what it waits for; the rank of what is waited for rises. -/
theorem exists_canStep [WellFoundedGT R] (h : Disciplined S rank y) {t : T} (ht : y.prog t ≠ []) :
    ∃ t', CanStep y t' := by
  by_contra hnone
  -- Every unfinished thread waits.
  have hwaits : ∀ t, y.prog t ≠ [] → ∃ t', WaitsFor y t t' := by
    intro t ht
    by_contra hno
    exact hnone ⟨t, ht, fun t' hw => hno ⟨t', hw⟩⟩
  have hchain : ∀ r, ∀ t m, Wants y t m → y.prog t ≠ [] → rank m = r → False := by
    intro r
    induction r using WellFoundedGT.induction with
    | ind r ih =>
      intro t m hw ht hr
      obtain ⟨t', m', hw', hm'⟩ := hwaits t ht
      obtain rfl := hw.unique hw'
      have ht' := unfinished_of_holds h hm'
      obtain ⟨t'', m'', hw'', -⟩ := hwaits t' ht'
      have hlt := rank_lt_of_wants h hw'' hm'
      exact ih (rank m'') (hr ▸ hlt) t' m'' hw'' ht' rfl
  obtain ⟨t', m, hw, -⟩ := hwaits t ht
  exact hchain (rank m) t m hw ht rfl

end Deadlock

end Ordered

/-! ### A thread alone -/

section Alone

variable (S : System M A D O)

/-- A program, run while nobody else steps, leads from one state of the data to another. -/
inductive Does : D → List (Instr M A) → D → Prop
  | done (d : D) : Does d [] d
  | lock {d d' : D} {m : M} {p : List (Instr M A)} (h : Does d p d') : Does d (.lock m :: p) d'
  | unlock {d d' : D} {m : M} {p : List (Instr M A)} (h : Does d p d') : Does d (.unlock m :: p) d'
  | act {d d' : D} {a : A} {p : List (Instr M A)} (h : Does (S.run a d).1 ((S.run a d).2 ++ p) d') :
      Does d (.act a :: p) d'

variable {S} {d d' d'' : D} {p q : List (Instr M A)}

theorem Does.append (h : Does S d p d') (h' : Does S d' q d'') : Does S d (p ++ q) d'' := by
  induction h with
  | done _ => exact h'
  | lock _ ih => exact .lock (ih h')
  | unlock _ ih => exact .unlock (ih h')
  | act _ ih =>
    refine .act ?_
    have hrest := ih h'
    rwa [List.append_assoc] at hrest

/-- A loop: each part does what one step of a fold does. -/
theorem does_flatMap {α : Type*} {f : α → List (Instr M A)} {g : D → α → D}
    (h : ∀ d a, Does S d (f a) (g d a)) (l : List α) (d : D) :
    Does S d (l.flatMap f) (l.foldl g d) := by
  induction l generalizing d with
  | nil => exact .done d
  | cons a l ih =>
    rw [List.flatMap_cons]
    exact (h d a).append (ih (g d a))

variable {R : Type*} [LinearOrder R] {rank : M → R} [DecidableEq T] [DecidableEq M]

/-- **A thread that is left alone, with all held locks its own, does what its program says**, and
then all locks are free. -/
theorem drive {t : T} (h : Does S d p d') : ∀ {y : State T M A D}, Disciplined S rank y →
    (∀ m t', y.holder m = some t' → t' = t) → y.data = d → y.prog t = p →
    ∃ n, run S y (List.replicate n (.resume t)) =
      { data := d', holder := fun _ => none, prog := Function.update y.prog t [] } := by
  induction h with
  | done d =>
    intro y hy hown hd hp
    obtain ⟨held, hheld⟩ := hy t
    have hord := hheld.ordered
    rw [hp] at hord
    cases hord
    have hfree : y.holder = fun _ => none := by
      funext m
      refine Option.eq_none_iff_forall_ne_some.mpr fun t' ht' => ?_
      rw [hown m t' ht', hheld.holder] at ht'
      cases ht'
    refine ⟨0, ?_⟩
    rw [← hp, Function.update_eq_self, ← hd, ← hfree]
    rfl
  | @lock d d' m p _ ih =>
    intro y hy hown hd hp
    -- A lock that the thread held would be of a lower rank than itself.
    have hfree : y.holder m = none := by
      refine Option.eq_none_iff_forall_ne_some.mpr fun t' ht' => ?_
      rw [hown m t' ht'] at ht'
      exact lt_irrefl _ (rank_lt_of_wants hy ⟨p, hp⟩ ht')
    have hown' : ∀ m' t', Function.update y.holder m (some t) m' = some t' → t' = t := by
      intro m' t' ht'
      rw [Function.update_apply] at ht'
      split_ifs at ht' with hmm
      · exact (Option.some.inj ht').symm
      · exact hown m' t' ht'
    obtain ⟨n, hn⟩ := ih (hy.moves (.locked hp hfree)) hown' hd (Function.update_self ..)
    exact ⟨n + 1, by rw [List.replicate_succ, run_lock S hp hfree, hn, Function.update_idem]⟩
  | @unlock d d' m p _ ih =>
    intro y hy hown hd hp
    have hown' : ∀ m' t', Function.update y.holder m none m' = some t' → t' = t := by
      intro m' t' ht'
      rw [Function.update_apply] at ht'
      split_ifs at ht' with hmm
      exact hown m' t' ht'
    obtain ⟨n, hn⟩ := ih (hy.moves (.unlocked hp)) hown' hd (Function.update_self ..)
    exact ⟨n + 1, by rw [List.replicate_succ, run_unlock S hp, hn, Function.update_idem]⟩
  | @act d d' a p _ ih =>
    intro y hy hown hd hp
    subst hd
    obtain ⟨n, hn⟩ := ih (hy.moves (.acted hp)) hown rfl (Function.update_self ..)
    exact ⟨n + 1, by rw [List.replicate_succ, run_act S hp, hn, Function.update_idem]⟩

end Alone

end Locks
