import EtcdLite.Lib.Run
import Mathlib.Logic.Function.Basic

/-!
# Handlers

Handlers of requests on a shared state, and clients that call them, in any interleaving. A handler
(`Prog`) goes a section at a time: it looks at the state, and acts on it or not; between its sections
others act, and it does not notice. What the state is follows from the actions so far
(`state_run`), so a moment of a run is the list of them, and a later moment is a longer list.

A handler is safe (`Prog.Safe`) when whatever the others do between its sections, what it returns is
right by the time it returns. Safety is a matter of the handler alone, section by section; and in
every run what a safe handler returns is right (`returned`).
-/

namespace Handlers

universe u v w x y

variable {σ : Type u} {α : Type v} {ω : Type w} {ι : Type x} {κ : Type y}

/-- What a handler has left to do. -/
inductive Prog (σ : Type u) (α : Type v) (ω : Type w) where
  /-- It returns. -/
  | done (o : ω)
  /-- It looks at the state and takes this action, if there is one, in one section; and goes on by
  what it saw. -/
  | step (a : Option α) (next : σ → Prog σ α ω)

namespace Prog

/-- What is left to do after a section, if it has not returned. -/
def advance (s : σ) : Prog σ α ω → Option (Prog σ α ω)
  | .done _ => none
  | .step _ next => some (next s)

/-- The action of its next section, if it takes one. -/
def action : Prog σ α ω → Option α
  | .done _ => none
  | .step a _ => a

/-- As long as the state meets `C`, it takes an action that meets `A` before it returns. -/
def Takes (C : σ → Prop) (A : α → Prop) : Prog σ α ω → Prop
  | .done _ => False
  | .step a next => (∃ x ∈ a, A x) ∨ ∀ s, C s → (next s).Takes C A

/-- By its next section, or it goes on to take one. -/
theorem Takes.advance {C : σ → Prop} {A : α → Prop} {p : Prog σ α ω} (h : p.Takes C A) {s : σ}
    (hs : C s) : (∃ x ∈ p.action, A x) ∨ ∃ p', p.advance s = some p' ∧ p'.Takes C A := by
  cases p with
  | done o => exact h.elim
  | step a next =>
    rcases h with htakes | hgoes
    · exact .inl htakes
    · exact .inr ⟨next s, rfl, hgoes s hs⟩

variable (exec : σ → α → σ)

/-- It is run to completion, and left alone. -/
def run : Prog σ α ω → σ → ω × σ
  | .done o, s => (o, s)
  | .step a next, s => (next s).run (a.elim s (exec s))

/-- Whatever others do before each of its sections, and before it returns, what it returns meets
`Q`. These are the actions so far, on a state that was `s₀` before them. -/
def Safe (s₀ : σ) (Q : List α → ω → Prop) : List α → Prog σ α ω → Prop
  | l, .done o => ∀ l', l <+: l' → Q l' o
  | l, .step a next => ∀ l', l <+: l' → (next (Run.final exec s₀ l')).Safe s₀ Q (l' ++ a.toList)

variable {exec} {s₀ : σ} {Q : List α → ω → Prop} {l l' : List α} {p : Prog σ α ω}

/-- It stays safe while others act. -/
theorem Safe.later (h : p.Safe exec s₀ Q l) (hl : l <+: l') : p.Safe exec s₀ Q l' := by
  cases p with
  | done o => exact fun l'' hl' => h l'' (hl.trans hl')
  | step a next => exact fun l'' hl' => h l'' (hl.trans hl')

end Prog

/-! ### Clients -/

/-- The shared state, and for each client whose handler is at work what this has left to do. -/
structure System (σ : Type u) (α : Type v) (ω : Type w) (κ : Type y) where
  state : σ
  client : κ → Option (Prog σ α ω)

/-- What can happen next. -/
inductive Act (ι : Type x) (κ : Type y) where
  /-- A client that waits for no response makes a request. -/
  | call (c : κ) (i : ι)
  /-- Its handler goes on by one section, or returns. -/
  | resume (c : κ)

namespace System

/-- No handler is at work. -/
def start (s₀ : σ) : System σ α ω κ := { state := s₀, client := fun _ => none }

variable [DecidableEq κ] (handler : ι → Prog σ α ω) (exec : σ → α → σ)

/-- One step. -/
def step (y : System σ α ω κ) : Act ι κ → System σ α ω κ
  | .call c i =>
    if (y.client c).isNone then { y with client := Function.update y.client c (some (handler i)) }
    else y
  | .resume c =>
    match y.client c with
    | none => y
    | some (.done _) => { y with client := Function.update y.client c none }
    | some (.step a next) =>
      { state := a.elim y.state (exec y.state),
        client := Function.update y.client c (some (next y.state)) }

/-- The state a run leads to. -/
abbrev run (y : System σ α ω κ) (acts : List (Act ι κ)) : System σ α ω κ :=
  Run.final (step handler exec) y acts

/-- The response of a client's handler, if it is about to return. -/
def response (y : System σ α ω κ) (c : κ) : Option ω :=
  match y.client c with
  | some (.done o) => some o
  | _ => none

/-- The action that a step takes on the state. -/
def executed (y : System σ α ω κ) : Act ι κ → List α
  | .call _ _ => []
  | .resume c =>
    match y.client c with
    | some (.step a _) => a.toList
    | _ => []

/-- The actions of a run. -/
abbrev history (y : System σ α ω κ) (acts : List (Act ι κ)) : List α :=
  Run.log (step handler exec) executed y acts

variable {handler exec} {y : System σ α ω κ}

omit [DecidableEq κ] in
theorem response_eq_some {c : κ} {o : ω} (h : y.response c = some o) :
    y.client c = some (.done o) := by
  rw [response] at h
  split at h
  case h_1 o' hc => rw [hc, Option.some.inj h]
  case h_2 => cases h

/-- After a call the client's handler is at work. -/
theorem client_call_eq_none {c c' : κ} {i : ι} :
    (y.step handler exec (.call c i)).client c' = none ↔ c' ≠ c ∧ y.client c' = none := by
  rw [step]
  by_cases hc : c' = c
  · subst hc
    split_ifs with hidle
    · simp
    · simpa using hidle
  · split_ifs <;> simp [hc]

/-- A handler that returns is not at work any more. -/
theorem client_resume_eq_none {c c' : κ} : (y.step handler exec (.resume c)).client c' = none ↔
    y.client c' = none ∨ c' = c ∧ (y.response c).isSome := by
  by_cases hc : c' = c
  · subst hc
    match hprog : y.client c' with
    | none => simp [step, response, hprog]
    | some (.done o) => simp [step, response, hprog]
    | some (.step a next) => simp [step, response, hprog]
  · match hprog : y.client c with
    | none => simp [step, hprog, hc]
    | some (.done o) => simp [step, hprog, hc, Function.update_of_ne]
    | some (.step a next) => simp [step, hprog, hc, Function.update_of_ne]

/-- A handler goes on by a section. -/
theorem client_resume (c : κ) : (y.step handler exec (.resume c)).client c =
    (y.client c).bind (Prog.advance y.state) := by
  match hprog : y.client c with
  | none => simp [step, hprog]
  | some (.done o) => simp [step, hprog, Prog.advance]
  | some (.step a next) => simp [step, hprog, Prog.advance]

/-- And acts on the state. -/
theorem state_resume (c : κ) : (y.step handler exec (.resume c)).state =
    ((y.client c).bind Prog.action).elim y.state (exec y.state) := by
  match hprog : y.client c with
  | none => simp [step, hprog]
  | some (.done o) => simp [step, hprog, Prog.action]
  | some (.step a next) => simp [step, hprog, Prog.action]

/-- The others do not go on. -/
theorem client_resume_of_ne {c c' : κ} (hc : c' ≠ c) :
    (y.step handler exec (.resume c)).client c' = y.client c' := by
  match hprog : y.client c with
  | none => simp [step, hprog]
  | some (.done o) => simp [step, hprog, hc]
  | some (.step a next) => simp [step, hprog, hc]

/-- A handler at work stays as it is when there are calls. -/
theorem client_call_of_ne_none {c c' : κ} {i : ι} (hc' : y.client c' ≠ none) :
    (y.step handler exec (.call c i)).client c' = y.client c' := by
  rw [step]
  split_ifs with hidle
  · refine Function.update_of_ne ?_ ..
    rintro rfl
    exact hc' (Option.isNone_iff_eq_none.mp hidle)
  · rfl

theorem state_step (a : Act ι κ) :
    (y.step handler exec a).state = Run.final exec y.state (y.executed a) := by
  cases a with
  | call c i =>
    rw [step]
    split_ifs <;> rfl
  | resume c =>
    match hc : y.client c with
    | none => simp [step, executed, hc]
    | some (.done o) => simp [step, executed, hc]
    | some (.step none next) => simp [step, executed, hc]
    | some (.step (some a) next) => simp [step, executed, hc]

/-- **The state is what the actions have made of it.** -/
theorem state_run (acts : List (Act ι κ)) :
    (y.run handler exec acts).state = Run.final exec y.state (y.history handler exec acts) := by
  induction acts generalizing y with
  | nil => rfl
  | cons a acts ih => rw [run, Run.final_cons, ih, state_step, ← Run.final_append, ← Run.log]

theorem history_append (xs ys : List (Act ι κ)) : y.history handler exec (xs ++ ys) =
    y.history handler exec xs ++ (y.run handler exec xs).history handler exec ys :=
  Run.log_append ..

/-! ### What a safe handler returns -/

/-- Until it makes another request, its handler is safe. -/
theorem safe_step {s₀ : σ} {Q : List α → ω → Prop} {l : List α} {c : κ} {a : Act ι κ}
    (hstate : y.state = Run.final exec s₀ l) (ha : ∀ i, a ≠ .call c i)
    (hsafe : ∀ p, y.client c = some p → p.Safe exec s₀ Q l) :
    ∀ p, (y.step handler exec a).client c = some p → p.Safe exec s₀ Q (l ++ y.executed a) := by
  intro p hp
  cases a with
  | call c' i =>
    have hne : c ≠ c' := by
      rintro rfl
      exact ha i rfl
    rw [executed, List.append_nil]
    rw [step] at hp
    split_ifs at hp
    · exact hsafe p ((Function.update_of_ne hne ..).symm.trans hp)
    · exact hsafe p hp
  | resume c' =>
    rw [executed]
    rw [step] at hp
    by_cases hc : c = c'
    · subst hc
      split at hp
      case h_1 hnone => cases hnone.symm.trans hp
      case h_2 o hdone => cases (Function.update_self c _ y.client).symm.trans hp
      case h_3 a next hnext =>
        obtain rfl := Option.some.inj ((Function.update_self c _ y.client).symm.trans hp)
        rw [hnext]
        have hgoes := hsafe _ hnext l (List.prefix_refl l)
        rwa [← hstate] at hgoes
    · refine Prog.Safe.later (hsafe p ?_) (List.prefix_append ..)
      split at hp
      case h_1 => exact hp
      case h_2 => exact (Function.update_of_ne hc ..).symm.trans hp
      case h_3 => exact (Function.update_of_ne hc ..).symm.trans hp

theorem safe_run {s₀ : σ} {Q : List α → ω → Prop} {l : List α} {c : κ} {acts : List (Act ι κ)}
    (hstate : y.state = Run.final exec s₀ l) (hacts : ∀ i, .call c i ∉ acts)
    (hsafe : ∀ p, y.client c = some p → p.Safe exec s₀ Q l) :
    ∀ p, (y.run handler exec acts).client c = some p →
      p.Safe exec s₀ Q (l ++ y.history handler exec acts) := by
  induction acts generalizing y l with
  | nil =>
    rw [history, Run.log, List.append_nil]
    exact hsafe
  | cons a acts ih =>
    have ha : ∀ i, a ≠ .call c i := fun i heq => hacts i (heq ▸ List.mem_cons_self)
    have hrest : ∀ i, .call c i ∉ acts := fun i hi => hacts i (List.mem_cons_of_mem _ hi)
    have hnext : (y.step handler exec a).state = Run.final exec s₀ (l ++ y.executed a) := by
      rw [state_step, hstate, Run.final_append]
    rw [history, Run.log, ← List.append_assoc]
    exact ih hnext hrest (safe_step hstate ha hsafe)

/-- **What a safe handler returns is right**, whatever happens before its call and until it
returns. -/
theorem returned {s₀ : σ} {before between : List (Act ι κ)} {c : κ} {i : ι} {o : ω}
    {Q : List α → ω → Prop} (hidle : ((start s₀).run handler exec before).client c = none)
    (hone : ∀ j, .call c j ∉ between)
    (hsafe : (handler i).Safe exec s₀ Q ((start s₀ : System σ α ω κ).history handler exec before))
    (ho : ((start s₀).run handler exec (before ++ .call c i :: between)).response c = some o) :
    Q ((start s₀ : System σ α ω κ).history handler exec (before ++ .call c i :: between)) o := by
  have hcalled : (((start s₀).run handler exec before).step handler exec (.call c i)) =
      { state := ((start s₀).run handler exec before).state,
        client := Function.update ((start s₀).run handler exec before).client c
          (some (handler i)) } := by
    rw [step, hidle]
    rfl
  have hrun : (start s₀).run handler exec (before ++ .call c i :: between) =
      (((start s₀).run handler exec before).step handler exec (.call c i)).run handler exec between :=
    Run.final_append ..
  have hhistory : (start s₀ : System σ α ω κ).history handler exec (before ++ .call c i :: between) =
      (start s₀).history handler exec before ++
        (((start s₀).run handler exec before).step handler exec (.call c i)).history handler exec
          between := history_append ..
  rw [hrun] at ho
  rw [hhistory]
  have hstate : ((start s₀ : System σ α ω κ).run handler exec before).state =
      Run.final exec s₀ ((start s₀ : System σ α ω κ).history handler exec before) := state_run before
  refine safe_run (by rw [hcalled, hstate]) hone (fun p hp => ?_) _ (response_eq_some ho) _
    (List.prefix_refl _)
  rw [hcalled] at hp
  rwa [← Option.some.inj ((Function.update_self c _ _).symm.trans hp)]

end System

end Handlers
