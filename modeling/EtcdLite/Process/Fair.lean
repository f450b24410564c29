import EtcdLite.Process.Safety
import Mathlib.Data.Nat.Pairing

/-!
# Fair runs

An infinite run is fair (`Fair`) when each thread and each handler goes on again and again, and time
passes. In such a run a handler returns in the end, whatever the others do (`leadsTo_idle`); and the
clock gets past any time (`often_clock`).
-/

namespace EtcdLite

open Server Handlers Fairness

namespace Process

/-- The states of an infinite run. -/
abbrev states (env : Env) (clock : Int) (acts : ℕ → ProcessAct) : ℕ → Process :=
  Fairness.states step (start env clock) acts

/-- Every thread and every handler goes on again and again, and time passes. -/
structure Fair (acts : ℕ → ProcessAct) : Prop where
  main : Often fun n => ∃ built, acts n = .main built
  shutdown : Often fun n => acts n = .shutdown
  check : Often fun n => acts n = .check
  resume : ∀ c, Often fun n => acts n = .resume c
  tick : Often fun n => ∃ d > 0, acts n = .tick d

/-- What is to be done. -/
def turn : ℕ → ProcessAct
  | 0 => .main true
  | 1 => .shutdown
  | 2 => .check
  | 3 => .tick 1
  | 4 => .call 0 .status
  | c + 5 => .resume c

/-- These steps are taken first, and then everything is done again and again. -/
def turns (first : List ProcessAct) (n : ℕ) : ProcessAct := first.getD n (turn n.unpair.1)

/-- What is never done otherwise is done first. -/
theorem turns_ne {first : List ProcessAct} {a : ProcessAct} (hfirst : a ∉ first)
    (hturn : ∀ k, turn k ≠ a) (n : ℕ) : turns first n ≠ a := by
  rw [turns, List.getD_eq_getElem?_getD]
  cases hget : first[n]? with
  | none => exact hturn _
  | some a' =>
    rintro rfl
    exact hfirst (List.mem_of_getElem? hget)

theorem fair_turns (first : List ProcessAct) : Fair (turns first) := by
  have hturn : ∀ k, Often fun n => turns first n = turn k := by
    intro k n
    have hle := Nat.right_le_pair k (max n first.length)
    refine ⟨Nat.pair k (max n first.length), (le_max_left ..).trans hle, ?_⟩
    show turns first (Nat.pair k (max n first.length)) = turn k
    rw [turns, List.getD_eq_getElem?_getD,
      List.getElem?_eq_none ((le_max_right ..).trans hle), Option.getD_none, Nat.unpair_pair]
  refine ⟨fun n => ?_, hturn 1, hturn 2, fun c => hturn (c + 5), fun n => ?_⟩
  · obtain ⟨m, hm, hmain⟩ := hturn 0 n
    exact ⟨m, hm, true, hmain⟩
  · obtain ⟨m, hm, htick⟩ := hturn 3 n
    exact ⟨m, hm, 1, one_pos, htick⟩

variable {env : Env} {clock : Int} {acts : ℕ → ProcessAct} {y : Process} {P Q : Process → Prop}

theorem orderly_states (n : ℕ) : Orderly (states env clock acts n) :=
  states_invariant (fun _ a h => h.step a) (orderly_start env clock) n

/-! ### Handlers return -/

/-- The step by which a handler goes on. -/
def driver : Option ℕ → ProcessAct
  | none => .check
  | some c => .resume c

/-- A step leaves a handler as it is, or takes it on by a section. -/
theorem client_step (h : Orderly y) (a : ProcessAct) {c : Option ℕ} {p : HandlerProg}
    (hp : y.clients.client c = some p) :
    (y.step a).clients.client c = some p ∧ a ≠ driver c ∨
      (y.step a).clients.client c = p.advance y.clients.state ∧ (y.step a).clients.state =
        p.action.elim y.clients.state (ServerAct.exec y.clients.state) := by
  obtain ⟨st, hst⟩ := h.stage
  have hbusy : y.clients.client c ≠ none := by simp [hp]
  cases a with
  | main built =>
    left
    rw [Process.step, (hst.mainStep built).1.rest.clients]
    exact ⟨hp, by cases c <;> simp [driver]⟩
  | shutdown =>
    left
    rw [Process.step, hst.shutdownStep.1.rest.clients]
    exact ⟨hp, by cases c <;> simp [driver]⟩
  | check =>
    cases c with
    | none =>
      right
      have hstep : (y.step .check).clients =
          y.clients.step handler ServerAct.exec (.resume none) := by
        simp [Process.step, Process.checkStep, h.checking hbusy, hp]
      rw [hstep, Handlers.System.client_resume, Handlers.System.state_resume, hp]
      exact ⟨rfl, rfl⟩
    | some c =>
      left
      refine ⟨?_, by simp [driver]⟩
      have hmoves := y.checkStep_moves
      rw [Process.step]
      generalize y.checkStep = z at hmoves
      cases hmoves with
      | wakes _ _ => rw [Handlers.System.client_call_of_ne_none hbusy, hp]
      | resumes _ _ => rw [Handlers.System.client_resume_of_ne (by simp), hp]
      | _ => exact hp
  | call c' req =>
    left
    refine ⟨?_, by cases c <;> simp [driver]⟩
    rw [Process.step]
    split_ifs
    · show (y.clients.step handler ServerAct.exec (.call (some c') req)).client c = some p
      rw [Handlers.System.client_call_of_ne_none hbusy, hp]
    · exact hp
  | resume c' =>
    by_cases hc : c = some c'
    · right
      subst hc
      show (y.clients.step handler ServerAct.exec (.resume (some c'))).client (some c') = _ ∧
        (y.clients.step handler ServerAct.exec (.resume (some c'))).state = _
      rw [Handlers.System.client_resume, Handlers.System.state_resume, hp]
      exact ⟨rfl, rfl⟩
    · left
      constructor
      · show (y.clients.step handler ServerAct.exec (.resume (some c'))).client c = some p
        rw [Handlers.System.client_resume_of_ne hc, hp]
      · cases c with
        | none => simp [driver]
        | some c => simpa [driver, eq_comm] using hc
  | openStream =>
    left
    refine ⟨?_, by cases c <;> simp [driver]⟩
    rw [Process.step]
    split_ifs <;> exact hp
  | endStream => exact .inl ⟨hp, by cases c <;> simp [driver]⟩
  | signal => exact .inl ⟨hp, by cases c <;> simp [driver]⟩
  | tick d => exact .inl ⟨hp, by cases c <;> simp [driver]⟩

section Return

variable {c : Option ℕ} (hfair : Often fun n => acts n = driver c)
  (hkeep : ∀ y a, Orderly y → P y → y.clients.client c ≠ none → P (y.step a) ∨ Q (y.step a))

include hfair hkeep

/-- A handler goes on by a section, while other things stay as they are. -/
theorem leadsTo_advance (p : HandlerProg) :
    LeadsTo (states env clock acts) (fun y => (P y ∧ y.clients.client c = some p) ∧ Orderly y)
      fun y => Q y ∨ (P y ∧ ∃ s, y.clients.client c = p.advance s) ∧ Orderly y := by
  refine .of_step (A := fun a => a = driver c) hfair (fun y a hy => ?_) fun y a hy ha => ?_
  · obtain ⟨⟨hP, hp⟩, h⟩ := hy
    rcases hkeep y a h hP (by simp [hp]) with hP' | hQ
    · rcases client_step h a hp with ⟨hsame, -⟩ | ⟨hnext, -⟩
      · exact .inl ⟨⟨hP', hsame⟩, h.step a⟩
      · exact .inr (.inr ⟨⟨hP', _, hnext⟩, h.step a⟩)
    · exact .inr (.inl hQ)
  · obtain ⟨⟨hP, hp⟩, h⟩ := hy
    rcases hkeep y a h hP (by simp [hp]) with hP' | hQ
    · rcases client_step h a hp with ⟨-, hother⟩ | ⟨hnext, -⟩
      · exact absurd ha hother
      · exact .inr ⟨⟨hP', _, hnext⟩, h.step a⟩
    · exact .inl hQ

/-- **A handler returns**, while other things stay as they are. -/
theorem leadsTo_idle :
    LeadsTo (states env clock acts) (fun y => P y ∧ y.clients.client c ≠ none)
      fun y => Q y ∨ P y ∧ y.clients.client c = none := by
  have hall : ∀ p, LeadsTo (states env clock acts)
      (fun y => (P y ∧ y.clients.client c = some p) ∧ Orderly y)
      fun y => Q y ∨ P y ∧ y.clients.client c = none := by
    intro p
    induction p with
    | done o =>
      refine (leadsTo_advance hfair hkeep _).imp (fun _ h => h) ?_
      rintro y (hQ | ⟨⟨hP, s, hnext⟩, -⟩)
      · exact .inl hQ
      · exact .inr ⟨hP, hnext⟩
    | step act next ih =>
      refine ((leadsTo_advance hfair hkeep _).imp (fun _ h => h) ?_).trans
        ((LeadsTo.of_imp fun _ => .inl).or (.of_exists ih))
      rintro y (hQ | ⟨⟨hP, s, hnext⟩, h⟩)
      · exact .inl hQ
      · exact .inr ⟨s, ⟨hP, hnext⟩, h⟩
  refine .of_always orderly_states ((LeadsTo.of_exists hall).imp (fun y hy => ?_) fun _ h => h)
  obtain ⟨⟨hP, hbusy⟩, h⟩ := hy
  obtain ⟨p, hp⟩ := Option.ne_none_iff_exists'.mp hbusy
  exact ⟨p, ⟨hP, hp⟩, h⟩

end Return

/-! ### Time passes -/

/-- The clock does not go back. -/
theorem step_clock (h : Orderly y) (a : ProcessAct) : y.clock ≤ (y.step a).clock := by
  obtain ⟨st, hst⟩ := h.stage
  cases a with
  | main built => exact (hst.mainStep built).1.rest.clock.ge
  | shutdown => exact hst.shutdownStep.1.rest.clock.ge
  | check =>
    have hmoves := y.checkStep_moves
    rw [Process.step]
    generalize y.checkStep = z at hmoves
    cases hmoves <;> exact le_rfl
  | call c req =>
    rw [Process.step]
    split_ifs <;> exact le_rfl
  | openStream =>
    rw [Process.step]
    split_ifs <;> exact le_rfl
  | resume c => exact le_rfl
  | endStream => exact le_rfl
  | signal => exact le_rfl
  | tick d => exact Int.le_add_of_nonneg_right (Int.natCast_nonneg d)

/-- The clock gets past any time. -/
theorem often_clock (hfair : Fair acts) (t : Int) :
    Often fun n => t ≤ (states env clock acts n).clock := by
  have hpast : LeadsTo (states env clock acts) Orderly fun y => t ≤ y.clock := by
    refine .of_rank_step (A := fun a => ∃ d > 0, a = .tick d) hfair.tick
      (fun y => (t - y.clock).toNat) (fun y a h => ?_) fun y a h ha => ?_
    · have hclock := step_clock h a
      exact .inr ⟨h.step a, by omega⟩
    · obtain ⟨d, hd, rfl⟩ := ha
      have hclock : (y.step (.tick d)).clock = y.clock + d := rfl
      by_cases hpast : t ≤ (y.step (.tick d)).clock
      · exact .inl hpast
      · exact .inr ⟨h.step _, by omega⟩
  exact fun n => hpast n (orderly_states n)

end Process

end EtcdLite
