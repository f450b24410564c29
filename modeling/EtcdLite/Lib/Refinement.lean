import EtcdLite.Lib.Run
import Mathlib.Data.List.Forall2

/-!
# Refinement

A machine reads inputs and answers them (`Machine`), and may have a choice of answers. A concrete
machine refines an abstract one when each of its steps is one that the abstract machine may take
(`Simulation`), and then its traces are traces of the abstract machine (`Simulation.trace`). So
what is settled in the abstract machine is settled in whatever refines it: two programs that refine
a machine whose answers are determined, up to what does not matter, answer alike
(`Simulation.agree`).
-/

namespace Refinement

universe u v w x

variable {σ : Type u} {τ : Type v} {ι : Type w} {ω : Type x}

/-- A machine: what it may answer to an input in a state, and the state it is in then. -/
abbrev Machine (σ : Type u) (ι : Type w) (ω : Type x) := σ → ι → ω → σ → Prop

/-- The machine takes these inputs and answers so, from one state to another. -/
inductive Trace (M : Machine σ ι ω) : σ → List (ι × ω) → σ → Prop where
  | nil (s : σ) : Trace M s [] s
  | cons {s s' s'' : σ} {i : ι} {o : ω} {l : List (ι × ω)} (h : M s i o s') (hl : Trace M s' l s'') :
    Trace M s ((i, o) :: l) s''

/-- The machine of a program. -/
def machine (serve : σ → ι → ω × σ) : Machine σ ι ω := fun s i o s' => serve s i = (o, s')

/-- What a program answers. -/
abbrev answers (serve : σ → ι → ω × σ) (s : σ) (is : List ι) : List ω :=
  Run.log (fun s i => (serve s i).2) (fun s i => [(serve s i).1]) s is

theorem answers_cons (serve : σ → ι → ω × σ) (s : σ) (i : ι) (is : List ι) :
    answers serve s (i :: is) = (serve s i).1 :: answers serve (serve s i).2 is := rfl

theorem length_answers (serve : σ → ι → ω × σ) (s : σ) (is : List ι) :
    (answers serve s is).length = is.length := by
  induction is generalizing s with
  | nil => rfl
  | cons i is ih => rw [answers_cons, List.length_cons, List.length_cons, ih]

/-- A program runs as its machine. -/
theorem trace_answers (serve : σ → ι → ω × σ) (s : σ) (is : List ι) :
    Trace (machine serve) s (is.zip (answers serve s is))
      (Run.final (fun s i => (serve s i).2) s is) := by
  induction is generalizing s with
  | nil => exact .nil s
  | cons i is ih => exact .cons rfl (ih _)

/-! ### Simulations -/

/-- Each step of the concrete machine is one that the abstract machine may take, with the same
answer, and leads to states that are related again. -/
def Simulation (C : Machine σ ι ω) (A : Machine τ ι ω) (R : σ → τ → Prop) : Prop :=
  ∀ ⦃s a i o s'⦄, R s a → C s i o s' → ∃ a', A a i o a' ∧ R s' a'

/-- **A simulation takes traces to traces.** -/
theorem Simulation.trace {C : Machine σ ι ω} {A : Machine τ ι ω} {R : σ → τ → Prop}
    (h : Simulation C A R) {s s' : σ} {a : τ} {l : List (ι × ω)} (hR : R s a)
    (hl : Trace C s l s') : ∃ a', Trace A a l a' ∧ R s' a' := by
  induction hl generalizing a with
  | nil s => exact ⟨a, .nil a, hR⟩
  | cons hstep _ ih =>
    obtain ⟨a₁, hstep', hR₁⟩ := h hR hstep
    obtain ⟨a', hl', hR'⟩ := ih hR₁
    exact ⟨a', .cons hstep' hl', hR'⟩

/-! ### Machines whose answers are determined -/

/-- The state that follows is determined, and the answer up to what does not matter. -/
def Determined (A : Machine τ ι ω) (Agree : ω → ω → Prop) : Prop :=
  ∀ ⦃a i o o' a' a''⦄, A a i o a' → A a i o' a'' → Agree o o' ∧ a' = a''

theorem Determined.trace {A : Machine τ ι ω} {Agree : ω → ω → Prop} (h : Determined A Agree)
    {a a' a'' : τ} {is : List ι} {os os' : List ω} (hos : os.length = is.length)
    (hos' : os'.length = is.length) (hl : Trace A a (is.zip os) a')
    (hl' : Trace A a (is.zip os') a'') : List.Forall₂ Agree os os' ∧ a' = a'' := by
  induction is generalizing a os os' with
  | nil =>
    obtain rfl := List.length_eq_zero_iff.mp hos
    obtain rfl := List.length_eq_zero_iff.mp hos'
    cases hl
    cases hl'
    exact ⟨.nil, rfl⟩
  | cons i is ih =>
    obtain ⟨o, os, rfl⟩ := List.exists_cons_of_length_eq_add_one hos
    obtain ⟨o', os', rfl⟩ := List.exists_cons_of_length_eq_add_one hos'
    cases hl with
    | cons hstep hl =>
      cases hl' with
      | cons hstep' hl' =>
        obtain ⟨hagree, rfl⟩ := h hstep hstep'
        obtain ⟨hrest, hsame⟩ := ih (Nat.succ.inj hos) (Nat.succ.inj hos') hl hl'
        exact ⟨.cons hagree hrest, hsame⟩

/-- **Programs that refine one machine answer alike**, if its answers are determined. -/
theorem Simulation.agree {serve : σ → ι → ω × σ} {A : Machine τ ι ω} {R : σ → τ → Prop}
    (h : Simulation (machine serve) A R) {Agree : ω → ω → Prop} (hA : Determined A Agree) {s s' : σ}
    {a : τ} (hs : R s a) (hs' : R s' a) (is : List ι) :
    List.Forall₂ Agree (answers serve s is) (answers serve s' is) := by
  obtain ⟨a₁, hl, -⟩ := h.trace hs (trace_answers serve s is)
  obtain ⟨a₂, hl', -⟩ := h.trace hs' (trace_answers serve s' is)
  exact (hA.trace (length_answers serve s is) (length_answers serve s' is) hl hl').1

end Refinement
