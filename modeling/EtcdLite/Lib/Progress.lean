import EtcdLite.Lib.Fairness
import EtcdLite.Lib.Locks
import Mathlib.Data.Fintype.Basic
import Mathlib.Logic.Hydra

/-!
# Operations return

Infinite runs of threads that take locks in the order of a rank. If locks are fair (`Fair`), each
operation returns (`often_returned`): what a thread holds while it waits is of a lower rank than
what it waits for, so, from the highest rank down, each lock is free again and again (`often_free`).
If they are not, a thread may wait for ever, but some operation returns (`exists_returns`), and all
do if no more are called (`all_return`): a step makes what is left of one program shorter.
-/

namespace Locks

open Fairness

universe u v w x y z

variable {T : Type u} {M : Type v} {A : Type w} {D : Type x} {O : Type y} {R : Type z}
  [LinearOrder R] [DecidableEq T] [DecidableEq M] {S : System M A D O} {rank : M → R}
  {s : State T M A D} {t : T}

/-! ### Programs end -/

/-- What may be left of a program after an instruction. -/
inductive Left (S : System M A D O) : List (Instr M A) → List (Instr M A) → Prop
  | lock (m : M) (p : List (Instr M A)) : Left S p (.lock m :: p)
  | unlock (m : M) (p : List (Instr M A)) : Left S p (.unlock m :: p)
  | act (a : A) (p : List (Instr M A)) (d : D) : Left S ((S.run a d).2 ++ p) (.act a :: p)

omit [DecidableEq T] [DecidableEq M] in
/-- An ordered program ends, whatever its actions read. -/
theorem Ordered.acc {held : List M} {p : List (Instr M A)} (h : Ordered S rank held p) :
    Acc (Left S) p := by
  induction h with
  | done => exact ⟨_, nofun⟩
  | lock _ _ ih =>
    refine ⟨_, fun q hq => ?_⟩
    cases hq
    exact ih
  | unlock _ ih =>
    refine ⟨_, fun q hq => ?_⟩
    cases hq
    exact ih
  | act _ ih =>
    refine ⟨_, fun q hq => ?_⟩
    cases hq
    exact ih _

theorem Moves.left {z : State T M A D} (h : Moves S s t z) : Left S (z.prog t) (s.prog t) := by
  cases h with
  | locked hp _ =>
    simp only [hp, Function.update_self]
    exact .lock ..
  | unlocked hp =>
    simp only [hp, Function.update_self]
    exact .unlock ..
  | acted hp =>
    simp only [hp, Function.update_self]
    exact .act ..

/-- A step of a thread leaves the programs of the others. -/
theorem Moves.prog {z : State T M A D} (h : Moves S s t z) :
    z.prog = Function.update s.prog t (z.prog t) := by
  cases h <;> simp

theorem Moves.prog_ne {z : State T M A D} (h : Moves S s t z) : s.prog t ≠ [] := by
  cases h with
  | locked hp _ => simp [hp]
  | unlocked hp => simp [hp]
  | acted hp => simp [hp]

/-- A step of its own leaves a lock with the thread, or releases it. -/
theorem Moves.holder {z : State T M A D} (h : Moves S s t z) {m : M} (hm : s.holder m = some t) :
    z.holder m = some t ∨ z.holder m = none := by
  cases h with
  | locked _ _ =>
    dsimp only
    rw [Function.update_apply]
    split_ifs
    · exact .inl rfl
    · exact .inl hm
  | unlocked _ =>
    dsimp only
    rw [Function.update_apply]
    split_ifs
    · exact .inr rfl
    · exact .inl hm
  | acted _ => exact .inl hm

/-! ### What others do -/

/-- A thread that is in an operation goes on by its own steps only. -/
theorem prog_step_of_ne {e : Event T O} (he : e ≠ .resume t) (hp : s.prog t ≠ []) :
    (step S s e).prog t = s.prog t := by
  rcases step_cases S s e with ⟨t', o, -, hidle, hz⟩ | ⟨t', rfl, hm⟩ | hz
  · have hne : t ≠ t' := by
      rintro rfl
      exact hp hidle
    rw [hz]
    exact Function.update_of_ne hne ..
  · have hne : t ≠ t' := by
      rintro rfl
      exact he rfl
    rw [hm.prog, Function.update_of_ne hne]
  · rw [hz]

/-- And releases its locks itself. -/
theorem holder_step_of_ne (h : Disciplined S rank s) {e : Event T O} (he : e ≠ .resume t) {m : M}
    (hm : s.holder m = some t) : (step S s e).holder m = some t := by
  rcases step_cases S s e with ⟨t', o, -, -, hz⟩ | ⟨t', rfl, hmoves⟩ | hz
  · rw [hz]
    exact hm
  · have hne : t' ≠ t := by
      rintro rfl
      exact he rfl
    rw [step] at hmoves ⊢
    generalize advance S s t' = z at hmoves
    cases hmoves with
    | @locked m' p hp hfree =>
      have hmm : m ≠ m' := by
        rintro rfl
        cases hfree.symm.trans hm
      exact (Function.update_of_ne hmm ..).trans hm
    | @unlocked m' p hp =>
      have hmm : m ≠ m' := by
        rintro rfl
        exact hne (Option.some.inj ((h.holder_eq hp).symm.trans hm))
      exact (Function.update_of_ne hmm ..).trans hm
    | acted hp => exact hm
  · rw [hz]
    exact hm

/-! ### Fair locks -/

section FairLocks

variable {s₀ : State T M A D} {evs : ℕ → Event T O}

/-- A thread that can step again and again does, again and again: a lock does not always go to
others. -/
def Fair (S : System M A D O) (s₀ : State T M A D) (evs : ℕ → Event T O) : Prop :=
  ∀ t, (Often fun n => CanStep (states (step S) s₀ evs n) t) →
    Often fun n => CanStep (states (step S) s₀ evs n) t ∧ evs n = .resume t

/-- An infinite run in which nothing happens in the end is fair. -/
theorem fair_of_idle {n : ℕ} (h : ∀ m ≥ n, ∀ t, (states (step S) s₀ evs m).prog t = []) :
    Fair S s₀ evs := by
  intro t hoften
  obtain ⟨m, hm, hne, -⟩ := hoften n
  exact absurd (h m hm t) hne

variable (hfair : Fair S s₀ evs) (hdisc : ∀ n, Disciplined S rank (states (step S) s₀ evs n))

include hfair hdisc

/-- A thread takes its next step, if what it waits for is free again and again; what the others
leave as it is holds until then. -/
theorem leadsTo_of_moves {p : List (Instr M A)} {K Q : State T M A D → Prop} (hne : p ≠ [])
    (hfree : ∀ n m, K (states (step S) s₀ evs n) → (states (step S) s₀ evs n).prog t = p →
      Wants (states (step S) s₀ evs n) t m →
        Often fun n => (states (step S) s₀ evs n).holder m = none)
    (hkeep : ∀ s e, Disciplined S rank s → e ≠ .resume t → K s → K (step S s e))
    (hmove : ∀ s z, K s → s.prog t = p → Moves S s t z → Q z) :
    LeadsTo (states (step S) s₀ evs) (fun s => K s ∧ s.prog t = p) Q := by
  rintro n ⟨hK, hp⟩
  by_contra hnone
  have hnot : ∀ m ≥ n, ¬ Q (states (step S) s₀ evs m) := fun m hm hQ => hnone ⟨m, hm, hQ⟩
  -- It stays where it is.
  have hstays : ∀ m ≥ n, K (states (step S) s₀ evs m) ∧
      (states (step S) s₀ evs m).prog t = p := by
    intro m hm
    induction m, hm using Nat.le_induction with
    | base => exact ⟨hK, hp⟩
    | succ m hm ih =>
      obtain ⟨hK, hp⟩ := ih
      have hnext := hnot (m + 1) (hm.trans m.le_succ)
      rw [states] at hnext ⊢
      by_cases he : evs m = .resume t
      · rw [he, step] at hnext ⊢
        rcases advance_cases S (states (step S) s₀ evs m) t with hmoves | hsame
        · exact absurd (hmove _ _ hK hp hmoves) hnext
        · rw [hsame]
          exact ⟨hK, hp⟩
      · exact ⟨hkeep _ _ (hdisc m) he hK, (prog_step_of_ne he (hp ▸ hne)).trans hp⟩
  have hcan : Often fun m => CanStep (states (step S) s₀ evs m) t := by
    intro k
    by_cases hwants : ∃ l, Wants (states (step S) s₀ evs n) t l
    · obtain ⟨l, hl⟩ := hwants
      obtain ⟨m, hm, hmfree⟩ := hfree n l hK hp hl (max k n)
      have hpm := (hstays m ((le_max_right k n).trans hm)).2
      refine ⟨m, (le_max_left k n).trans hm, hpm ▸ hne, ?_⟩
      rintro t' ⟨l', ⟨p', hp'⟩, hl'⟩
      have hwants' : Wants (states (step S) s₀ evs n) t l' := ⟨p', hp.trans (hpm.symm.trans hp')⟩
      rw [← hl.unique hwants'] at hl'
      cases hmfree.symm.trans hl'
    · have hpm := (hstays (max k n) (le_max_right k n)).2
      refine ⟨max k n, le_max_left k n, hpm ▸ hne, ?_⟩
      rintro t' ⟨l', ⟨p', hp'⟩, -⟩
      exact hwants ⟨l', p', hp.trans (hpm.symm.trans hp')⟩
  obtain ⟨m, hm, hstep, he⟩ := hfair t hcan n
  obtain ⟨hK, hp⟩ := hstays m hm
  refine hnot (m + 1) (hm.trans m.le_succ) ?_
  rw [states, he]
  exact hmove _ _ hK hp (hstep.moves S)

/-- A thread releases a lock that it holds, if those of a higher rank are free again and again. -/
theorem leadsTo_free {m : M} (hhigher : ∀ m', rank m < rank m' →
    Often fun n => (states (step S) s₀ evs n).holder m' = none) (t : T) :
    LeadsTo (states (step S) s₀ evs) (fun s => s.holder m = some t) fun s => s.holder m = none := by
  have hall : ∀ p, Acc (Left S) p → LeadsTo (states (step S) s₀ evs)
      (fun s => s.holder m = some t ∧ s.prog t = p) fun s => s.holder m = none := by
    intro p hp
    induction hp with
    | intro p _ ih =>
      by_cases hne : p = []
      · rintro n ⟨hown, hp⟩
        exact absurd (hp.trans hne) (unfinished_of_holds (hdisc n) hown)
      -- What it waits for is of a higher rank.
      have hnext : LeadsTo (states (step S) s₀ evs) (fun s => s.holder m = some t ∧ s.prog t = p)
          fun s => s.holder m = none ∨ ∃ q, Left S q p ∧ s.holder m = some t ∧ s.prog t = q := by
        refine leadsTo_of_moves hfair hdisc hne (fun n m' hown _ hwants => ?_)
          (fun s e h he => holder_step_of_ne h he) fun s z hown hp hmoves => ?_
        · exact hhigher m' (rank_lt_of_wants (hdisc n) hwants hown)
        · rcases hmoves.holder hown with hown | hfree
          · exact .inr ⟨_, hp ▸ hmoves.left, hown, rfl⟩
          · exact .inl hfree
      refine hnext.trans ((LeadsTo.of_imp fun _ h => h).or (.of_exists fun q => ?_))
      rintro n ⟨hq, hrest⟩
      exact ih q hq n hrest
  intro n hown
  obtain ⟨held, hheld⟩ := hdisc n t
  exact hall _ hheld.ordered.acc n ⟨hown, rfl⟩

/-- **Each lock is free again and again.** -/
theorem often_free [WellFoundedGT R] (m : M) :
    Often fun n => (states (step S) s₀ evs n).holder m = none := by
  have hall : ∀ r m, rank m = r → Often fun n => (states (step S) s₀ evs n).holder m = none := by
    intro r
    induction r using WellFoundedGT.induction with
    | ind r ih =>
      rintro m rfl n
      cases hm : (states (step S) s₀ evs n).holder m with
      | none => exact ⟨n, le_rfl, hm⟩
      | some t => exact leadsTo_free hfair hdisc (fun m' hlt => ih _ hlt m' rfl) t n hm
  exact hall _ m rfl

/-- **Each operation returns.** -/
theorem often_returned [WellFoundedGT R] (t : T) :
    Often fun n => (states (step S) s₀ evs n).prog t = [] := by
  have hall : ∀ p, Acc (Left S) p →
      LeadsTo (states (step S) s₀ evs) (fun s => s.prog t = p) fun s => s.prog t = [] := by
    intro p hp
    induction hp with
    | intro p _ ih =>
      by_cases hne : p = []
      · exact .of_imp fun s hs => hs.trans hne
      have hnext : LeadsTo (states (step S) s₀ evs) (fun s => True ∧ s.prog t = p)
          fun s => ∃ q, Left S q p ∧ s.prog t = q :=
        leadsTo_of_moves hfair hdisc hne (fun _ m _ _ _ => often_free hfair hdisc m)
          (fun _ _ _ _ h => h) fun s z _ hp hmoves => ⟨_, hp ▸ hmoves.left, rfl⟩
      refine (hnext.imp (fun s hs => ⟨trivial, hs⟩) fun _ h => h).trans (.of_exists fun q => ?_)
      rintro n ⟨hq, hrest⟩
      exact ih q hq n hrest
  intro n
  obtain ⟨held, hheld⟩ := hdisc n t
  exact hall _ hheld.ordered.acc n rfl

end FairLocks

/-! ### Any locks -/

section AnyLocks

open Relation

/-- Programs, and what may be left of them; above them all is a thread that may call any. -/
def Below (S : System M A D O) : Option (List (Instr M A)) → Option (List (Instr M A)) → Prop
  | some q, some p => Left S q p ∧ Acc (Left S) p
  | some _, none => True
  | none, _ => False

omit [DecidableEq T] [DecidableEq M] in
theorem wellFounded_below : WellFounded (Below S) := by
  have hends : ∀ p, Acc (Left S) p → Acc (Below S) (some p) := by
    intro p hp
    induction hp with
    | intro p _ ih =>
      refine ⟨_, fun o ho => ?_⟩
      cases o with
      | none => exact ho.elim
      | some q => exact ih q ho.1
  have hall : ∀ p, Acc (Below S) (some p) := by
    refine fun p => ⟨_, fun o ho => ?_⟩
    cases o with
    | none => exact ho.elim
    | some q => exact hends q (ho.2.inv ho.1)
  refine ⟨fun o => ?_⟩
  cases o with
  | some p => exact hall p
  | none =>
    refine ⟨_, fun o ho => ?_⟩
    cases o with
    | none => exact ho.elim
    | some q => exact hall q

/-- What a thread has to do, if it is in an operation. -/
def task (p : List (Instr M A)) : Option (List (Instr M A)) := if p.isEmpty then none else some p

omit [DecidableEq T] [DecidableEq M] in
theorem task_of_ne {p : List (Instr M A)} (hp : p ≠ []) : task p = some p := by simp [task, hp]

variable [Fintype T]

/-- The threads that are in an operation. -/
def busy (s : State T M A D) : Finset T := Finset.univ.filter fun t => (s.prog t).isEmpty = false

omit [DecidableEq T] [DecidableEq M] in
theorem mem_busy : t ∈ busy s ↔ s.prog t ≠ [] := by simp [busy]

/-- What the threads have to do. -/
def tasks (s : State T M A D) : Multiset (Option (List (Instr M A))) :=
  Finset.univ.val.map (task ∘ s.prog)

omit [DecidableEq M] in
/-- One thread has less to do. -/
theorem cutExpand_tasks {z : State T M A D} {p : List (Instr M A)}
    (hz : z.prog = Function.update s.prog t p) (hp : Below S (task p) (task (s.prog t))) :
    CutExpand (Below S) (tasks z) (tasks s) := by
  refine ⟨{task p}, task (s.prog t), by simpa using hp, ?_⟩
  obtain ⟨others, hothers⟩ := Multiset.exists_cons_of_mem (Finset.mem_univ_val t)
  have hnodup : (t ::ₘ others).Nodup := hothers ▸ Finset.univ.nodup
  have hsame : others.map (task ∘ z.prog) = others.map (task ∘ s.prog) := by
    refine Multiset.map_congr rfl fun t' ht' => ?_
    have hne : t' ≠ t := by
      rintro rfl
      exact (Multiset.nodup_cons.mp hnodup).1 ht'
    simp [hz, hne]
  simp only [tasks, hothers, Multiset.map_cons, hsame]
  simp [hz, ← Multiset.singleton_add, add_comm, add_left_comm]

/-- By a step of a thread it returns, or has less to do. -/
theorem Moves.returns_or {z : State T M A D} (h : Disciplined S rank s) (hm : Moves S s t z) :
    z.prog t = [] ∨ CutExpand (Below S) (tasks z) (tasks s) ∧ z.prog t ≠ [] := by
  by_cases hz : z.prog t = []
  · exact .inl hz
  · refine .inr ⟨cutExpand_tasks hm.prog ?_, hz⟩
    obtain ⟨held, hheld⟩ := h t
    rw [task_of_ne hz, task_of_ne hm.prog_ne]
    exact ⟨hm.left, hheld.ordered.acc⟩

/-- By any step nothing changes, or a thread returns, or there is less to do. -/
theorem step_tasks (h : Disciplined S rank s) (e : Event T O) :
    step S s e = s ∨ (∃ t, s.prog t ≠ [] ∧ (step S s e).prog t = []) ∨
      CutExpand (Below S) (tasks (step S s e)) (tasks s) ∧ ∃ t, (step S s e).prog t ≠ [] := by
  rcases step_cases S s e with ⟨t, o, -, hidle, hz⟩ | ⟨t, -, hm⟩ | hz
  · by_cases ho : S.program o = []
    · left
      rw [hz, ho, ← hidle, Function.update_eq_self]
    · right
      right
      rw [hz]
      refine ⟨cutExpand_tasks (t := t) rfl ?_, t, ?_⟩
      · rw [task_of_ne ho, hidle]
        trivial
      · dsimp only
        rwa [Function.update_self]
  · rcases hm.returns_or h with hret | ⟨hless, hne⟩
    · exact .inr (.inl ⟨t, hm.prog_ne, hret⟩)
    · exact .inr (.inr ⟨hless, t, hne⟩)
  · exact .inl hz

variable {s₀ : State T M A D} {evs : ℕ → Event T O} [WellFoundedGT R]
  (hfair : ∀ t, Often fun n => evs n = .resume t)
  (hdisc : ∀ n, Disciplined S rank (states (step S) s₀ evs n))

/-- A thread returns from an operation by this step. -/
def Returns (S : System M A D O) (s₀ : State T M A D) (evs : ℕ → Event T O) (n : ℕ) : Prop :=
  ∃ t, (states (step S) s₀ evs n).prog t ≠ [] ∧ (states (step S) s₀ evs (n + 1)).prog t = []

include hfair hdisc

/-- **While a thread is in an operation, some operation returns.** -/
theorem exists_returns {n : ℕ} (hn : ∃ t, (states (step S) s₀ evs n).prog t ≠ []) :
    ∃ m ≥ n, Returns S s₀ evs m := by
  have hall : ∀ k n, tasks (states (step S) s₀ evs n) = k →
      (∃ t, (states (step S) s₀ evs n).prog t ≠ []) → ∃ m ≥ n, Returns S s₀ evs m := by
    intro k
    induction k using (wellFounded_below (S := S)).cutExpand.induction with
    | h k ih =>
      rintro n rfl ⟨t, ht⟩
      -- A state with less to do comes later.
      have hless : ∀ m ≥ n, CutExpand (Below S) (tasks (states (step S) s₀ evs (m + 1)))
          (tasks (states (step S) s₀ evs n)) → (∃ t, (states (step S) s₀ evs (m + 1)).prog t ≠ []) →
          ∃ m ≥ n, Returns S s₀ evs m := by
        intro m hm hless hbusy
        obtain ⟨m', hm', hret⟩ := ih _ hless (m + 1) rfl hbusy
        exact ⟨m', hm.trans (m.le_succ.trans hm'), hret⟩
      obtain ⟨t', hcan⟩ := exists_canStep (hdisc n) ht
      obtain ⟨m, hm, he⟩ := hfair t' n
      by_cases hsame : states (step S) s₀ evs m = states (step S) s₀ evs n
      · -- The thread steps.
        have hmoves : Moves S (states (step S) s₀ evs m) t' (states (step S) s₀ evs (m + 1)) := by
          rw [states, he, hsame]
          exact hcan.moves S
        rcases hmoves.returns_or (hdisc m) with hret | ⟨hlt, hbusy⟩
        · exact ⟨m, hm, t', hmoves.prog_ne, hret⟩
        · exact hless m hm (hsame ▸ hlt) ⟨t', hbusy⟩
      · -- Another does before.
        obtain ⟨k, hk, hsame, hchange⟩ := exists_last hm
          (p := fun k => states (step S) s₀ evs k = states (step S) s₀ evs n) rfl hsame
        rcases step_tasks (hdisc k) (evs k) with hnone | ⟨t'', hret⟩ | ⟨hlt, hbusy⟩
        · exact absurd (hnone.trans hsame) hchange
        · exact ⟨k, hk, t'', hret⟩
        · exact hless k hk (hsame ▸ hlt) hbusy
  exact hall _ n rfl hn

omit hfair hdisc [Fintype T] [WellFoundedGT R] in
/-- Without calls, an idle thread stays idle. -/
theorem idle_step {e : Event T O} (he : ∀ t o, e ≠ .call t o) (hp : s.prog t = []) :
    (step S s e).prog t = [] := by
  rcases step_cases S s e with ⟨t', o, heq, -, -⟩ | ⟨t', -, hm⟩ | hz
  · exact absurd heq (he t' o)
  · have hne : t ≠ t' := by
      rintro rfl
      exact hm.prog_ne hp
    rw [hm.prog, Function.update_of_ne hne, hp]
  · rw [hz, hp]

/-- **If no more operations are called, all return.** -/
theorem all_return {n : ℕ} (hcalls : ∀ m ≥ n, ∀ t o, evs m ≠ .call t o) :
    ∃ m ≥ n, ∀ k ≥ m, ∀ t, (states (step S) s₀ evs k).prog t = [] := by
  have hshrinks : ∀ m ≥ n, ∀ k ≥ m,
      busy (states (step S) s₀ evs k) ⊆ busy (states (step S) s₀ evs m) := by
    intro m hm k hk
    induction k, hk using Nat.le_induction with
    | base => exact Finset.Subset.refl _
    | succ k hk ih =>
      refine Finset.Subset.trans (fun t ht => ?_) ih
      rw [mem_busy] at ht ⊢
      exact fun hp => ht (idle_step (hcalls k (hm.trans hk)) hp)
  have hall : ∀ c, ∀ m ≥ n, (busy (states (step S) s₀ evs m)).card = c →
      ∃ k ≥ m, busy (states (step S) s₀ evs k) = ∅ := by
    intro c
    induction c using Nat.strong_induction_on with
    | h c ih =>
      rintro m hm rfl
      by_cases hidle : busy (states (step S) s₀ evs m) = ∅
      · exact ⟨m, le_rfl, hidle⟩
      obtain ⟨t, ht⟩ := Finset.nonempty_iff_ne_empty.mpr hidle
      obtain ⟨k, hk, t', hbusy, hret⟩ := exists_returns hfair hdisc ⟨t, mem_busy.mp ht⟩
      have hfewer : busy (states (step S) s₀ evs (k + 1)) ⊂ busy (states (step S) s₀ evs m) := by
        refine (Finset.ssubset_iff_of_subset (hshrinks m hm _ (hk.trans k.le_succ))).mpr
          ⟨t', hshrinks m hm k hk (mem_busy.mpr hbusy), ?_⟩
        rw [mem_busy, not_not]
        exact hret
      have hlater : k + 1 ≥ m := hk.trans k.le_succ
      obtain ⟨k', hk', hempty⟩ := ih _ (Finset.card_lt_card hfewer) (k + 1) (hm.trans hlater) rfl
      exact ⟨k', hlater.trans hk', hempty⟩
  obtain ⟨m, hm, hempty⟩ := hall _ n le_rfl rfl
  refine ⟨m, hm, fun k hk t => ?_⟩
  by_contra hp
  have ht := hshrinks m hm k hk (mem_busy.mpr hp)
  rw [hempty] at ht
  cases ht

end AnyLocks

end Locks
