import Mathlib.Data.List.Induction
import Mathlib.Tactic.Tauto

/-!
# Runs

Runs of a system given by a total step function: `Run.final` is where a list of
actions leads, `Run.Along` says that a condition holds at each of its steps, and
`Run.log` collects what the steps emit. The rules are the ones an invariant
argument needs: prove what one step preserves, and conclude for every run.
-/

namespace Run

universe u v w

variable {σ : Type u} {α : Type v} {β : Type w} (step : σ → α → σ)

/-- The state a run leads to. -/
def final (s : σ) (acts : List α) : σ := acts.foldl step s

/-- Each step of the run is taken in a state, and by an action, that meet `C`. -/
def Along (C : σ → α → Prop) : σ → List α → Prop
  | _, [] => True
  | s, a :: acts => C s a ∧ Along C (step s a) acts

/-- What the steps of the run emit, in order. -/
def log (emit : σ → α → List β) : σ → List α → List β
  | _, [] => []
  | s, a :: acts => emit s a ++ log emit (step s a) acts

@[simp] theorem final_nil (s : σ) : final step s [] = s := rfl

@[simp] theorem final_cons (s : σ) (a : α) (acts : List α) :
    final step s (a :: acts) = final step (step s a) acts := rfl

theorem final_append (s : σ) (xs ys : List α) :
    final step s (xs ++ ys) = final step (final step s xs) ys := List.foldl_append

@[simp] theorem final_concat (s : σ) (acts : List α) (a : α) :
    final step s (acts ++ [a]) = step (final step s acts) a := by
  simp [final_append]

theorem along_append (C : σ → α → Prop) (s : σ) (xs ys : List α) :
    Along step C s (xs ++ ys) ↔ Along step C s xs ∧ Along step C (final step s xs) ys := by
  induction xs generalizing s with
  | nil => simp [Along]
  | cons x xs ih => simp only [List.cons_append, Along, ih, final_cons, and_assoc]

theorem along_of_forall {C : σ → α → Prop} (hC : ∀ s a, C s a) (s : σ) (acts : List α) :
    Along step C s acts := by
  induction acts generalizing s with
  | nil => trivial
  | cons a acts ih => exact ⟨hC s a, ih _⟩

theorem along_imp {C C' : σ → α → Prop} (hC : ∀ s a, C s a → C' s a) {s : σ} {acts : List α}
    (h : Along step C s acts) : Along step C' s acts := by
  induction acts generalizing s with
  | nil => trivial
  | cons a acts ih => exact ⟨hC s a h.1, ih h.2⟩

theorem along_and {C C' : σ → α → Prop} {s : σ} {acts : List α} :
    Along step (fun s a => C s a ∧ C' s a) s acts ↔ Along step C s acts ∧ Along step C' s acts := by
  induction acts generalizing s with
  | nil => simp [Along]
  | cons a acts ih =>
    simp only [Along, ih]
    tauto

theorem log_append (emit : σ → α → List β) (s : σ) (xs ys : List α) :
    log step emit s (xs ++ ys) = log step emit s xs ++ log step emit (final step s xs) ys := by
  induction xs generalizing s with
  | nil => rfl
  | cons x xs ih => simp only [List.cons_append, log, ih, final_cons, List.append_assoc]

theorem log_concat (emit : σ → α → List β) (s : σ) (acts : List α) (a : α) :
    log step emit s (acts ++ [a]) = log step emit s acts ++ emit (final step s acts) a := by
  simp [log_append, log]

/-- **The invariant rule**: what holds at the start and is kept by every step holds
wherever a run leads. -/
theorem invariant {I : σ → Prop} (hstep : ∀ s a, I s → I (step s a)) {s : σ} (h : I s)
    (acts : List α) : I (final step s acts) := by
  induction acts generalizing s with
  | nil => exact h
  | cons a acts ih => exact ih (hstep s a h)

/-- The invariant rule for runs whose steps all meet a condition. -/
theorem invariant_along {C : σ → α → Prop} {I : σ → Prop}
    (hstep : ∀ s a, I s → C s a → I (step s a)) {s : σ} (h : I s) {acts : List α}
    (hC : Along step C s acts) : I (final step s acts) := by
  induction acts generalizing s with
  | nil => exact h
  | cons a acts ih => exact ih (hstep s a h hC.1) hC.2

/-- When a condition on a step is exactly what keeps `J`, it holds along a run exactly when
`J` holds in every state the run reaches. -/
theorem along_iff_always {C : σ → α → Prop} {I J : σ → Prop} (hI : ∀ s a, I s → I (step s a))
    (hJ : ∀ s a, I s → J s → (C s a ↔ J (step s a))) {s : σ} (h : I s) (h' : J s)
    (acts : List α) : Along step C s acts ↔ ∀ pre, pre <+: acts → J (final step s pre) := by
  induction acts generalizing s with
  | nil =>
    refine iff_of_true trivial fun pre hpre => ?_
    rw [List.prefix_nil.mp hpre]
    exact h'
  | cons a acts ih =>
    rw [Along, hJ s a h h']
    constructor
    · rintro ⟨ha, hacts⟩ pre hpre
      rcases List.prefix_cons_iff.mp hpre with rfl | ⟨pre', rfl, hpre'⟩
      · exact h'
      · exact (ih (hI s a h) ha).mp hacts pre' hpre'
    · intro hall
      have ha : J (step s a) := hall [a] (List.prefix_cons_iff.mpr (.inr ⟨[], rfl, acts.nil_prefix⟩))
      refine ⟨ha, (ih (hI s a h) ha).mpr fun pre hpre => hall (a :: pre) ?_⟩
      exact List.prefix_cons_iff.mpr (.inr ⟨pre, rfl, hpre⟩)

/-- A condition holds along a run when each step meets it in the state that those before lead
to. -/
theorem along_of_split {C : σ → α → Prop} {s : σ} {acts : List α}
    (h : ∀ pre a post, acts = pre ++ a :: post → C (final step s pre) a) : Along step C s acts := by
  induction acts generalizing s with
  | nil => trivial
  | cons a acts ih =>
    refine ⟨h [] a acts rfl, ih fun pre a' post hacts => ?_⟩
    exact h (a :: pre) a' post (by rw [hacts, List.cons_append])

/-- A condition holds along a run exactly when each step meets it in the state that those before
lead to. -/
theorem along_iff_split {C : σ → α → Prop} {s : σ} {acts : List α} :
    Along step C s acts ↔ ∀ pre a post, acts = pre ++ a :: post → C (final step s pre) a := by
  refine ⟨?_, along_of_split step⟩
  rintro h pre a post rfl
  exact ((along_append step C s pre _).mp h).2.1

/-- When a condition on a step is exactly what keeps `J`, and nothing brings it back, it holds along
a run exactly when `J` holds at the end. -/
theorem final_iff_along {C : σ → α → Prop} {I J : σ → Prop} (hI : ∀ s a, I s → I (step s a))
    (hJ : ∀ s a, I s → (J (step s a) ↔ J s ∧ C s a)) {s : σ} (h : I s) (acts : List α) :
    J (final step s acts) ↔ J s ∧ Along step C s acts := by
  induction acts generalizing s with
  | nil => simp [Along]
  | cons a acts ih => rw [final_cons, ih (hI s a h), hJ s a h, Along, and_assoc]

/-- Conditions that are the same in every state where an invariant holds are the same along a run. -/
theorem along_congr {C C' : σ → α → Prop} {I : σ → Prop} (hI : ∀ s a, I s → I (step s a))
    (hC : ∀ s a, I s → (C s a ↔ C' s a)) {s : σ} (h : I s) (acts : List α) :
    Along step C s acts ↔ Along step C' s acts := by
  induction acts generalizing s with
  | nil => exact Iff.rfl
  | cons a acts ih => exact and_congr (hC s a h) (ih (hI s a h))

/-- What holds in every state a run reaches gives a condition on its steps. -/
theorem along_of_invariant {C C' : σ → α → Prop} {I : σ → Prop}
    (hstep : ∀ s a, I s → C s a → C' s a ∧ I (step s a)) {s : σ} {acts : List α} (h : I s)
    (hC : Along step C s acts) : Along step C' s acts := by
  induction acts generalizing s with
  | nil => trivial
  | cons a acts ih =>
    obtain ⟨ha, hnext⟩ := hstep s a h hC.1
    exact ⟨ha, ih hnext hC.2⟩

theorem along_of_always {C : σ → α → Prop} {J : σ → Prop} (hC : ∀ s a, J s → C s a) {s : σ}
    {acts : List α} (h : ∀ pre, pre <+: acts → J (final step s pre)) : Along step C s acts := by
  induction acts generalizing s with
  | nil => trivial
  | cons a acts ih =>
    refine ⟨hC s a (h [] List.nil_prefix), ih fun pre hpre => h (a :: pre) ?_⟩
    exact List.prefix_cons_iff.mpr (.inr ⟨pre, rfl, hpre⟩)

/-- The invariant rule for a property of the state together with the log so far, for runs whose
steps all meet a condition. -/
theorem invariant_log_along {emit : σ → α → List β} {C : σ → α → Prop} {I : σ → List β → Prop}
    (hstep : ∀ s a l, I s l → C s a → I (step s a) (l ++ emit s a)) {s : σ} (h : I s [])
    {acts : List α} (hC : Along step C s acts) : I (final step s acts) (log step emit s acts) := by
  induction acts using List.reverseRecOn with
  | nil => exact h
  | append_singleton acts a ih =>
    obtain ⟨hacts, ha, -⟩ := (along_append step C s acts [a]).mp hC
    rw [final_concat, log_concat]
    exact hstep _ _ _ (ih hacts) ha

/-- The invariant rule for a property of the state together with the log so far. -/
theorem invariant_log {emit : σ → α → List β} {I : σ → List β → Prop}
    (hstep : ∀ s a l, I s l → I (step s a) (l ++ emit s a)) {s : σ} (h : I s [])
    (acts : List α) : I (final step s acts) (log step emit s acts) :=
  invariant_log_along step (C := fun _ _ => True) (fun s a l hl _ => hstep s a l hl) h
    (along_of_forall step (fun _ _ => trivial) s acts)

/-- What holds of all that a run emits holds, at each step, of what the step emits. -/
theorem forall_mem_log {emit : σ → α → List β} {P : β → Prop} {s : σ} {acts : List α} :
    (∀ x ∈ log step emit s acts, P x) ↔ Along step (fun s a => ∀ x ∈ emit s a, P x) s acts := by
  induction acts generalizing s with
  | nil => exact iff_of_true (fun _ hx => nomatch hx) trivial
  | cons a acts ih => rw [log, List.forall_mem_append, ih, Along]

/-- What cannot be emitted any more is not. -/
theorem log_eq_nil {emit : σ → α → List β} {C : σ → α → Prop} {Spent : σ → Prop}
    (hspent : ∀ s a, C s a → Spent s → emit s a = [] ∧ Spent (step s a)) {s : σ} (h : Spent s)
    {acts : List α} (hC : Along step C s acts) : log step emit s acts = [] := by
  induction acts generalizing s with
  | nil => rfl
  | cons a acts ih =>
    obtain ⟨hnil, hnext⟩ := hspent s a hC.1 h
    rw [log, hnil, List.nil_append]
    exact ih hnext hC.2

/-- **At most once**: when a step emits one thing at most, and in doing so brings about what
lasts and lets nothing more be emitted, a run emits one thing at most. -/
theorem log_length_le_one {emit : σ → α → List β} {C : σ → α → Prop} {Spent : σ → Prop}
    (hone : ∀ s a, (emit s a).length ≤ 1)
    (hspend : ∀ s a, C s a → emit s a ≠ [] → Spent (step s a))
    (hspent : ∀ s a, C s a → Spent s → emit s a = [] ∧ Spent (step s a)) {s : σ} {acts : List α}
    (hC : Along step C s acts) : (log step emit s acts).length ≤ 1 := by
  induction acts generalizing s with
  | nil => exact Nat.zero_le 1
  | cons a acts ih =>
    rw [log]
    by_cases hnil : emit s a = []
    · rw [hnil, List.nil_append]
      exact ih hC.2
    · rw [log_eq_nil step hspent (hspend s a hC.1 hnil) hC.2, List.append_nil]
      exact hone s a

end Run
