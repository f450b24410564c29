import EtcdLite.Process.Fair

/-!
# The rounds of the expiration thread

In a fair run the expiration thread goes round: it sleeps, checks the leases, and comes back to its
loop's condition, as long as nothing ends that (`Undisturbed`). Of what it waits for, time passes, and
the check returns.
-/

namespace EtcdLite

open Server Handlers Fairness

namespace Process

variable {env : Env} {clock : Int} {acts : ℕ → ProcessAct} {y : Process} {a : ProcessAct}
  {B E : Process → Prop}

/-- The other threads leave the expiration thread where it stands, but to join it. -/
theorem step_thread (h : Orderly y) (ha : a ≠ .check) (hthere : y.expirationThread ≠ none)
    (hjoin : y.expirationThread = some .exited → (y.step a).shutdownThread = y.shutdownThread) :
    (y.step a).expirationThread = y.expirationThread := by
  obtain ⟨st, hst⟩ := h.stage
  cases a with
  | main built =>
    have hmoves := (hst.mainStep built).1
    rw [Process.step]
    generalize y.mainStep built = z at hmoves
    cases hmoves with
    | startsCheck hpc hnone => exact absurd hnone hthere
    | _ => rfl
  | shutdown =>
    have hmoves := hst.shutdownStep.1
    rw [Process.step] at *
    generalize y.shutdownStep = z at hmoves hjoin
    cases hmoves with
    | joinsCheck hpc hexited => cases hpc.symm.trans (hjoin hexited).symm
    | _ => rfl
  | check => exact absurd rfl ha
  | call c req =>
    rw [Process.step]
    split_ifs <;> rfl
  | openStream =>
    rw [Process.step]
    split_ifs <;> rfl
  | resume c => rfl
  | endStream => rfl
  | signal => rfl
  | tick d => rfl

/-- And the other steps start no check. -/
theorem step_idle (h : Orderly y) (ha : a ≠ .check) (hidle : y.clients.client none = none) :
    (y.step a).clients.client none = none := by
  obtain ⟨st, hst⟩ := h.stage
  cases a with
  | main built => rw [Process.step, (hst.mainStep built).1.rest.clients, hidle]
  | shutdown => rw [Process.step, hst.shutdownStep.1.rest.clients, hidle]
  | check => exact absurd rfl ha
  | call c req =>
    rw [Process.step]
    split_ifs
    · show (y.clients.step handler ServerAct.exec (.call (some c) req)).client none = none
      rw [Handlers.System.client_call_eq_none]
      exact ⟨by simp, hidle⟩
    · exact hidle
  | resume c =>
    show (y.clients.step handler ServerAct.exec (.resume (some c))).client none = none
    rw [Handlers.System.client_resume_eq_none]
    exact .inl hidle
  | openStream =>
    rw [Process.step]
    split_ifs <;> exact hidle
  | endStream => exact hidle
  | signal => exact hidle
  | tick d => exact hidle

/-- As long as it is `B`, the other threads leave the expiration thread where it stands; and it is,
until it is `E`. -/
structure Undisturbed (B E : Process → Prop) : Prop where
  orderly : ∀ y, B y → Orderly y
  step : ∀ y a, B y → E (y.step a) ∨
    B (y.step a) ∧ (a ≠ .check → (y.step a).expirationThread = y.expirationThread)

/-- It stays so when some time has passed. -/
theorem Undisturbed.past (hbase : Undisturbed B E) (t : Int) :
    Undisturbed (fun y => B y ∧ t ≤ y.clock) E where
  orderly y h := hbase.orderly y h.1
  step y a h := by
    rcases hbase.step y a h.1 with hends | ⟨h', hsame⟩
    · exact .inl hends
    · exact .inr ⟨⟨h', h.2.trans (step_clock (hbase.orderly y h.1) a)⟩, hsame⟩

variable (hfair : Fair acts) (hbase : Undisturbed B E)

include hfair hbase

/-- Time passes. -/
theorem leadsTo_past (t : Int) :
    LeadsTo (states env clock acts) B fun y => E y ∨ B y ∧ t ≤ y.clock :=
  .of_often (fun y a h => (hbase.step y a h).symm.imp_left And.left) (often_clock hfair t)

/-- It takes a step of its own, and nothing that it looks at changes before. -/
theorem leadsTo_check {C R : Process → Prop}
    (hkeep : ∀ y a, a ≠ .check → B y → C y →
      (y.step a).expirationThread = y.expirationThread → C (y.step a))
    (hmove : ∀ y, B y → C y → R y.checkStep) :
    LeadsTo (states env clock acts) (fun y => B y ∧ C y) fun y => E y ∨ B y ∧ R y := by
  refine .of_step (A := fun a => a = .check) hfair.check (fun y a hy => ?_) fun y a hy ha => ?_
  · obtain ⟨h, hC⟩ := hy
    rcases hbase.step y a h with hends | ⟨h', hsame⟩
    · exact .inr (.inl hends)
    · by_cases ha : a = .check
      · subst ha
        exact .inr (.inr ⟨h', hmove y h hC⟩)
      · exact .inl ⟨h', hkeep y a ha h hC (hsame ha)⟩
  · obtain ⟨h, hC⟩ := hy
    subst ha
    rcases hbase.step y .check h with hends | ⟨h', -⟩
    · exact .inl hends
    · exact .inr ⟨h', hmove y h hC⟩

/-- It comes to the end of its round. -/
theorem leadsTo_load :
    LeadsTo (states env clock acts) (fun y => B y ∧ y.expirationThread = some .checking)
      fun y => E y ∨ B y ∧ y.expirationThread = some .load := by
  have hreturns : LeadsTo (states env clock acts)
      (fun y => B y ∧ y.expirationThread = some .checking ∧ y.clients.client none = none)
      fun y => E y ∨ B y ∧ y.expirationThread = some .load := by
    refine leadsTo_check hfair hbase (fun y a ha h hC hthread => ?_) fun y h hC => ?_
    · exact ⟨hthread.trans hC.1, step_idle (hbase.orderly y h) ha hC.2⟩
    · simp [Process.checkStep, hC.1, hC.2]
  have hbusy : LeadsTo (states env clock acts)
      (fun y => (B y ∧ y.expirationThread = some .checking) ∧ y.clients.client none ≠ none)
      fun y => E y ∨ (B y ∧ y.expirationThread = some .checking) ∧ y.clients.client none = none := by
    refine leadsTo_idle hfair.check fun y a horderly hP hbusy => ?_
    obtain ⟨h, hchecking⟩ := hP
    rcases hbase.step y a h with hends | ⟨h', hsame⟩
    · exact .inr hends
    · by_cases ha : a = .check
      · obtain ⟨p, hp⟩ := Option.ne_none_iff_exists'.mp hbusy
        subst ha
        exact .inl ⟨h', by simp [Process.step, Process.checkStep, hchecking, hp]⟩
      · exact .inl ⟨h', (hsame ha).trans hchecking⟩
  intro n hn
  obtain ⟨h, hchecking⟩ := hn
  by_cases hidle : (states env clock acts n).clients.client none = none
  · exact hreturns n ⟨h, hchecking, hidle⟩
  · obtain ⟨m, hm, hends | ⟨⟨h', hchecking'⟩, hidle'⟩⟩ := hbusy n ⟨⟨h, hchecking⟩, hidle⟩
    · exact ⟨m, hm, .inl hends⟩
    · obtain ⟨m', hm', hload⟩ := hreturns m ⟨h', hchecking', hidle'⟩
      exact ⟨m', hm.trans hm', hload⟩

/-- It wakes up, and begins a check. -/
theorem leadsTo_checking (wake : Int) :
    LeadsTo (states env clock acts) (fun y => B y ∧ y.expirationThread = some (.sleeping wake))
      fun y => E y ∨ B y ∧ y.expirationThread = some .checking ∧
        y.clients.client none = some (handler (.checkExpiration y.clock)) := by
  have hwakes : ∀ y, B y → y.expirationThread = some (.sleeping wake) → wake ≤ y.clock →
      y.checkStep.expirationThread = some .checking ∧
        y.checkStep.clients.client none = some (handler (.checkExpiration y.checkStep.clock)) := by
    intro y h hsleeping hwake
    have hidle : y.clients.client none = none := by
      by_contra hbusy
      cases hsleeping.symm.trans ((hbase.orderly y h).checking hbusy)
    simp [Process.checkStep, hsleeping, hwake, Handlers.System.step, hidle]
  have hawake : LeadsTo (states env clock acts)
      (fun y => B y ∧ y.expirationThread = some (.sleeping wake) ∧ wake ≤ y.clock)
      fun y => E y ∨ B y ∧ y.expirationThread = some .checking ∧
        y.clients.client none = some (handler (.checkExpiration y.clock)) := by
    refine leadsTo_check hfair hbase (fun y a _ h hC hthread => ?_) fun y h hC => hwakes y h hC.1 hC.2
    exact ⟨hthread.trans hC.1, hC.2.trans (step_clock (hbase.orderly y h) a)⟩
  refine (LeadsTo.of_often (fun y a hy => ?_) (often_clock hfair wake)).trans
    ((LeadsTo.of_imp fun _ h => h).or (hawake.imp (fun y hy => ⟨hy.1.1, hy.1.2, hy.2⟩) fun _ h => h))
  obtain ⟨h, hsleeping⟩ := hy
  rcases hbase.step y a h with hends | ⟨h', hsame⟩
  · exact .inr (.inl hends)
  · by_cases ha : a = .check
    · subst ha
      by_cases hwake : wake ≤ y.clock
      · exact .inr (.inr ⟨h', hwakes y h hsleeping hwake⟩)
      · exact .inl ⟨h', by simp [Process.step, Process.checkStep, hsleeping, hwake]⟩
    · exact .inl ⟨h', (hsame ha).trans hsleeping⟩

end Process

end EtcdLite
