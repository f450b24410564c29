import EtcdLite.Lib.Run
import Mathlib.Order.WellFounded

/-!
# What happens in the end

Infinite runs of a system given by a total step function (`states`), and what they lead to
(`LeadsTo`): from each state that meets one condition, to a state that meets another. The rules are
those of an argument by stages. A stage ends by a step that is taken often (`LeadsTo.of_step`), or
when something else happens that does (`LeadsTo.of_often`); stages follow each other
(`LeadsTo.trans`); and a stage that comes again and again, each time with a smaller rank, ends
(`LeadsTo.of_rank`).
-/

namespace Fairness

universe u v w

variable {σ : Type u} {α : Type v} {step : σ → α → σ} {s₀ : σ} {acts : ℕ → α} {x : ℕ → σ}
  {P Q R I : σ → Prop}

/-- The states of the run that takes these steps. -/
def states (step : σ → α → σ) (s₀ : σ) (acts : ℕ → α) : ℕ → σ
  | 0 => s₀
  | n + 1 => step (states step s₀ acts n) (acts n)

/-- It happens again and again. -/
def Often (p : ℕ → Prop) : Prop := ∀ n, ∃ m ≥ n, p m

/-- From each state that meets `P`, it comes to one that meets `Q`. -/
def LeadsTo (x : ℕ → σ) (P Q : σ → Prop) : Prop := ∀ n, P (x n) → ∃ m ≥ n, Q (x m)

/-- An invariant holds in each state. -/
theorem states_invariant (hstep : ∀ s a, I s → I (step s a)) (h : I s₀) (n : ℕ) :
    I (states step s₀ acts n) := by
  induction n with
  | zero => exact h
  | succ n ih => exact hstep _ _ ih

/-- What is so at one time and not later ends by some step. -/
theorem exists_last {p : ℕ → Prop} {n m : ℕ} (hnm : n ≤ m) (hn : p n) (hm : ¬ p m) :
    ∃ k ≥ n, p k ∧ ¬ p (k + 1) := by
  by_contra hnone
  refine hm (Nat.le_induction hn (fun k hk hp => ?_) m hnm)
  by_contra hnext
  exact hnone ⟨k, hk, hp, hnext⟩

namespace LeadsTo

theorem of_imp (h : ∀ s, P s → Q s) : LeadsTo x P Q := fun n hP => ⟨n, le_rfl, h _ hP⟩

theorem trans (hPQ : LeadsTo x P Q) (hQR : LeadsTo x Q R) : LeadsTo x P R := by
  intro n hP
  obtain ⟨m, hm, hQ⟩ := hPQ n hP
  obtain ⟨k, hk, hR⟩ := hQR m hQ
  exact ⟨k, hm.trans hk, hR⟩

theorem imp {P' Q' : σ → Prop} (h : LeadsTo x P Q) (hP : ∀ s, P' s → P s) (hQ : ∀ s, Q s → Q' s) :
    LeadsTo x P' Q' :=
  ((of_imp hP).trans h).trans (of_imp hQ)

/-- Whichever of them it is. -/
theorem or (hP : LeadsTo x P R) (hQ : LeadsTo x Q R) : LeadsTo x (fun s => P s ∨ Q s) R := by
  rintro n (h | h)
  · exact hP n h
  · exact hQ n h

theorem of_exists {β : Sort w} {P : β → σ → Prop} (h : ∀ b, LeadsTo x (P b) Q) :
    LeadsTo x (fun s => ∃ b, P b s) Q := by
  rintro n ⟨b, hP⟩
  exact h b n hP

/-- What always holds may be assumed. -/
theorem of_always (hI : ∀ n, I (x n)) (h : LeadsTo x (fun s => P s ∧ I s) Q) : LeadsTo x P Q :=
  fun n hP => h n ⟨hP, hI n⟩

/-- A condition that stays until another comes about is met until then. -/
theorem stays (hkeep : ∀ s a, P s → P (step s a) ∨ Q (step s a)) {n : ℕ}
    (h : P (states step s₀ acts n)) {m : ℕ} (hm : n ≤ m) :
    P (states step s₀ acts m) ∨ ∃ k ≥ n, k ≤ m ∧ Q (states step s₀ acts k) := by
  induction m, hm using Nat.le_induction with
  | base => exact .inl h
  | succ m hm ih =>
    rcases ih with hP | ⟨k, hk, hkm, hQ⟩
    · rcases hkeep _ (acts m) hP with hP | hQ
      · exact .inl hP
      · exact .inr ⟨m + 1, hm.trans m.le_succ, le_rfl, hQ⟩
    · exact .inr ⟨k, hk, hkm.trans m.le_succ, hQ⟩

/-- A condition stays until another comes about; and meanwhile something happens that does often. -/
theorem of_often (hkeep : ∀ s a, P s → P (step s a) ∨ Q (step s a))
    (hR : Often fun n => R (states step s₀ acts n)) :
    LeadsTo (states step s₀ acts) P fun s => Q s ∨ P s ∧ R s := by
  intro n hP
  obtain ⟨m, hm, hR⟩ := hR n
  rcases stays hkeep hP hm with hP | ⟨k, hk, -, hQ⟩
  · exact ⟨m, hm, .inr ⟨hP, hR⟩⟩
  · exact ⟨k, hk, .inl hQ⟩

/-- **A stage ends by a step that is taken often**, if each such step ends it. -/
theorem of_step {A : α → Prop} (hA : Often fun n => A (acts n))
    (hkeep : ∀ s a, P s → P (step s a) ∨ Q (step s a))
    (hmove : ∀ s a, P s → A a → Q (step s a)) : LeadsTo (states step s₀ acts) P Q := by
  intro n hP
  obtain ⟨m, hm, hA⟩ := hA n
  rcases stays hkeep hP hm with hP | ⟨k, hk, -, hQ⟩
  · exact ⟨m + 1, hm.trans m.le_succ, hmove _ _ hP hA⟩
  · exact ⟨k, hk, hQ⟩

/-- **A stage that always comes again with a smaller rank ends.** -/
theorem of_rank {ρ : Type w} {r : ρ → ρ → Prop} (hr : WellFounded r) (rank : σ → ρ)
    (h : ∀ k, LeadsTo x (fun s => P s ∧ rank s = k) fun s => Q s ∨ P s ∧ r (rank s) k) :
    LeadsTo x P Q := by
  have hall : ∀ k, LeadsTo x (fun s => P s ∧ rank s = k) Q := by
    intro k
    induction k using hr.induction with
    | h k ih =>
      intro n hP
      obtain ⟨m, hm, hQ | ⟨hP, hlt⟩⟩ := h k n hP
      · exact ⟨m, hm, hQ⟩
      · obtain ⟨m', hm', hQ⟩ := ih _ hlt m ⟨hP, rfl⟩
        exact ⟨m', hm.trans hm', hQ⟩
  exact fun n hP => hall _ n ⟨hP, rfl⟩

/-- A stage whose rank falls by a step that is taken often, and does not rise by any other. -/
theorem of_rank_step {A : α → Prop} (hA : Often fun n => A (acts n)) (rank : σ → ℕ)
    (hkeep : ∀ s a, P s → Q (step s a) ∨ P (step s a) ∧ rank (step s a) ≤ rank s)
    (hmove : ∀ s a, P s → A a → Q (step s a) ∨ P (step s a) ∧ rank (step s a) < rank s) :
    LeadsTo (states step s₀ acts) P Q := by
  refine of_rank wellFounded_lt rank fun k => of_step hA (fun s a hP => ?_) fun s a hP ha => ?_
  · obtain ⟨hP, rfl⟩ := hP
    rcases hkeep s a hP with hQ | ⟨hP, hle⟩
    · exact .inr (.inl hQ)
    · rcases hle.eq_or_lt with heq | hlt
      · exact .inl ⟨hP, heq⟩
      · exact .inr (.inr ⟨hP, hlt⟩)
  · obtain ⟨hP, rfl⟩ := hP
    exact hmove s a hP ha

end LeadsTo

end Fairness
