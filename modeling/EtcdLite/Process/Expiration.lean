import EtcdLite.Process.Rounds

/-!
# No lease stays overdue

A lease is overdue when it is in the table though its time has come (`Overdue`). In a fair run none is
for ever: unless there is a signal, a lease that is not renewed leaves the table (`overdue_ends`),
whatever clients do meanwhile. For the expiration thread comes round again and again; by a round that
begins after the lease's time it finds the lease, and the round erases it unless it is gone before
(`handler_takes`).
-/

namespace EtcdLite

open Server Handlers Fairness

/-- The lease is in the table, and its time comes by `T`. -/
def Overdue (L T : Int) (s : Server) : Prop :=
  ∃ lease, s.leaseManager.leases.find? L = some lease ∧ lease.expireTime ≤ T

/-! ### A round erases the lease -/

namespace Server

variable {L T : Int}

/-- The section that erases the lease. -/
abbrev Erases (L : Int) (a : ServerAct) : Prop := a = .atom (.erase L)

theorem not_overdue_erase (s : Server) : ¬ Overdue L T (ServerAct.exec s (.atom (.erase L))) := by
  rintro ⟨lease, hfind, -⟩
  simp [ServerAct.exec, Atom.exec, LeaseManager.erase] at hfind

theorem deleteKeys_takes {C : Server → Prop} {A : ServerAct → Prop} {next : HandlerProg}
    (h : next.Takes C A) (keys : List Bytes) : (deleteKeys next keys).Takes C A := by
  induction keys with
  | nil => exact h
  | cons key keys ih => exact .inr fun _ _ => ih

/-- `Revoke` of the lease erases it, as long as it finds it. -/
theorem revokeLease_takes (next : Status → HandlerProg) :
    (revokeLease L next).Takes (Overdue L T) (Erases L) := by
  right
  rintro s ⟨lease, hfind, -⟩
  dsimp only
  rw [LeaseManager.getLeaseKeys_known hfind]
  refine deleteKeys_takes ?_ _
  exact .inl ⟨_, rfl, rfl⟩

/-- `Revoke` of any lease does, or what comes after it. -/
theorem revokeLease_takes_next {C : Server → Prop} {A : ServerAct → Prop}
    {next : Status → HandlerProg} (h : ∀ rc, (next rc).Takes C A) (leaseId : Int) :
    (revokeLease leaseId next).Takes C A := by
  refine .inr fun s _ => ?_
  dsimp only
  split
  · exact h _
  · refine deleteKeys_takes ?_ _
    exact .inr fun _ _ => h .OK

theorem revokeLeases_takes {leaseIds : List Int} (hL : L ∈ leaseIds) :
    (revokeLeases leaseIds).Takes (Overdue L T) (Erases L) := by
  induction leaseIds with
  | nil => cases hL
  | cons leaseId leaseIds ih =>
    by_cases hid : L = leaseId
    · rw [← hid]
      exact revokeLease_takes _
    · exact revokeLease_takes_next (fun _ => ih (List.mem_of_ne_of_mem hid hL)) leaseId

/-- **A check erases the lease**, if it begins when its time has come and the lease stays overdue. -/
theorem handler_takes {now : Int} (hnow : T ≤ now) :
    (handler (.checkExpiration now)).Takes (Overdue L T) (Erases L) := by
  right
  rintro s ⟨lease, hfind, htime⟩
  exact revokeLeases_takes (LeaseManager.mem_expiredLeases_iff.mpr ⟨lease, hfind, htime.trans hnow⟩)

end Server

namespace Process

variable {env : Env} {clock : Int} {acts : ℕ → ProcessAct} {L T : Int} {y : Process}

/-! ### And the rounds come again -/

/-- Before a signal, the expiration thread does not exit once it has been started. -/
theorem Orderly.running (h : Orderly y) (hunsignalled : y.shutdown = false)
    (hthere : y.expirationThread ≠ none) : y.running = true ∧ y.expirationThread ≠ some .exited := by
  obtain ⟨st, hst⟩ := h.stage
  cases st with
  | started => exact ⟨hst.running, hst.expirationThread.2⟩
  | serving => exact ⟨hst.running, hst.expirationThread.2⟩
  | joining => cases hunsignalled.symm.trans (h.signalled _ hst.shutdownThread (by simp))
  | _ => exact absurd hst.expirationThread hthere

/-- The lease is overdue, and the expiration thread goes round. -/
structure Waiting (L T : Int) (y : Process) : Prop where
  orderly : Orderly y
  unsignalled : y.shutdown = false
  thread : y.expirationThread ≠ none
  overdue : Overdue L T y.clients.state

/-- There has been a signal, or the lease is not overdue. -/
def Settled (L T : Int) (y : Process) : Prop :=
  y.shutdown = true ∨ ¬ Overdue L T y.clients.state

theorem undisturbed_waiting : Undisturbed (Waiting L T) (Settled L T) where
  orderly _ h := h.orderly
  step y a h := by
    obtain ⟨hrunning, hlive⟩ := h.orderly.running h.unsignalled h.thread
    by_cases hsettled : Settled L T (y.step a)
    · exact .inl hsettled
    · obtain ⟨hunsignalled, hoverdue⟩ := not_or.mp hsettled
      have hthread : a ≠ .check → (y.step a).expirationThread = y.expirationThread := fun ha =>
        step_thread h.orderly ha h.thread fun hexited => absurd hexited hlive
      refine .inr ⟨⟨h.orderly.step a, Bool.eq_false_iff.mpr hunsignalled, ?_,
        not_not.mp hoverdue⟩, hthread⟩
      by_cases ha : a = .check
      · subst ha
        have hmoves := y.checkStep_moves
        rw [Process.step]
        generalize y.checkStep = z at hmoves
        cases hmoves with
        | ends _ => exact h.thread
        | sleeps _ _ => exact h.thread
        | resumes _ _ => exact h.thread
        | _ => simp
      · rw [hthread ha]
        exact h.thread

/-- A round that begins when its time has come settles it. -/
theorem leadsTo_settled_checking (hfair : Fair acts) :
    LeadsTo (states env clock acts)
      (fun y => (Waiting L T y ∧ T ≤ y.clock) ∧ y.expirationThread = some .checking ∧
        y.clients.client none = some (handler (.checkExpiration y.clock)))
      (Settled L T) := by
  have hround : LeadsTo (states env clock acts)
      (fun y => (Waiting L T y ∧ ∃ p, y.clients.client none = some p ∧
        p.Takes (Overdue L T) (Erases L)) ∧ y.clients.client none ≠ none)
      fun y => Settled L T y ∨ (Waiting L T y ∧ ∃ p, y.clients.client none = some p ∧
        p.Takes (Overdue L T) (Erases L)) ∧ y.clients.client none = none := by
    refine leadsTo_idle hfair.check fun y a horderly hP _ => ?_
    obtain ⟨h, p, hp, htakes⟩ := hP
    rcases undisturbed_waiting.step y a h with hsettled | ⟨h', -⟩
    · exact .inr hsettled
    rcases client_step horderly a hp with ⟨hsame, -⟩ | ⟨hnext, hstate⟩
    · exact .inl ⟨h', p, hsame, htakes⟩
    · rcases htakes.advance h.overdue with ⟨_, haction, rfl⟩ | ⟨p', hp', htakes'⟩
      · rw [Option.mem_def.mp haction] at hstate
        refine .inr (.inr ?_)
        rw [hstate]
        exact not_overdue_erase y.clients.state
      · exact .inl ⟨h', p', hnext.trans hp', htakes'⟩
  refine hround.imp (fun y hy => ?_) fun y hy => ?_
  · obtain ⟨⟨h, hclock⟩, -, hp⟩ := hy
    exact ⟨⟨h, _, hp, handler_takes hclock⟩, by simp [hp]⟩
  · rcases hy with hsettled | ⟨⟨h, p, hp, -⟩, hidle⟩
    · exact hsettled
    · cases hidle.symm.trans hp

/-- The next round does. -/
theorem leadsTo_settled (hfair : Fair acts) :
    LeadsTo (states env clock acts) (Waiting L T) (Settled L T) := by
  have hbase := (@undisturbed_waiting L T).past T
  have hsettled : LeadsTo (states env clock acts) (Settled L T) (Settled L T) := .of_imp fun _ h => h
  have hsleeping := fun wake => (leadsTo_checking hfair hbase wake).trans
    (hsettled.or (leadsTo_settled_checking hfair))
  have hsleeps : LeadsTo (states env clock acts)
      (fun y => (Waiting L T y ∧ T ≤ y.clock) ∧ y.expirationThread = some .load)
      fun y => Settled L T y ∨
        (Waiting L T y ∧ T ≤ y.clock) ∧ ∃ wake, y.expirationThread = some (.sleeping wake) := by
    refine leadsTo_check hfair hbase (fun y a _ _ hload hthread => hthread.trans hload) ?_
    intro y h hload
    obtain ⟨hrunning, -⟩ := h.1.orderly.running h.1.unsignalled h.1.thread
    simp [Process.checkStep, hload, hrunning]
  have hload := hsleeps.trans (hsettled.or ((LeadsTo.of_exists hsleeping).imp
    (fun _ h => h.2.imp fun _ hthread => ⟨h.1, hthread⟩) fun _ h => h))
  have hchecking := (leadsTo_load hfair hbase).trans (hsettled.or hload)
  refine (leadsTo_past hfair undisturbed_waiting T).trans (hsettled.or fun n h => ?_)
  obtain ⟨thread, hthread⟩ := Option.ne_none_iff_exists'.mp h.1.thread
  cases thread with
  | load => exact hload n ⟨h, hthread⟩
  | sleeping wake => exact hsleeping wake n ⟨h, hthread⟩
  | checking => exact hchecking n ⟨h, hthread⟩
  | exited => exact absurd hthread (h.1.orderly.running h.1.unsignalled h.1.thread).2

/-! ### From the start of the server -/

/-- Once there is a server, the expiration thread is started. -/
theorem leadsTo_thread (hfair : Fair acts) :
    LeadsTo (states env clock acts) (fun y => y.At .starting ∨ y.At .spawning)
      fun y => y.expirationThread ≠ none := by
  have hnext : ∀ (y : Process) a, y.At .starting ∨ y.At .spawning →
      (y.step a).expirationThread ≠ none ∨ (y.step a).At .starting ∨ (y.step a).At .spawning := by
    rintro y a (h | h)
    · rcases h.step a with hsame | ⟨st, hst, hnext⟩
      · exact .inr (.inl hsame)
      · obtain rfl := List.mem_singleton.mp hst
        exact .inr (.inr hnext)
    · rcases h.step a with hsame | ⟨st, hst, hnext⟩
      · exact .inr (.inr hsame)
      · obtain rfl := List.mem_singleton.mp hst
        exact .inl hnext.expirationThread.1
  have hat : ∀ y : Process, y.At .starting ∨ y.At .spawning → ∃ st, y.At st ∧ ¬ MainWaits y := by
    rintro y (h | h)
    all_goals
      have hmain := h.main
      refine ⟨_, h, fun hwaits => ?_⟩
      cases hwaits <;> simp_all
  refine .of_rank_step (A := fun a => ∃ built, a = .main built) hfair.main rank
    (fun y a h => ?_) fun y a h ha => ?_
  · obtain ⟨st, hst, -⟩ := hat y h
    exact (hnext y a h).imp_right fun h' => ⟨h', hst.step_rank_le a⟩
  · obtain ⟨built, rfl⟩ := ha
    obtain ⟨st, hst, hruns⟩ := hat y h
    rcases (hst.mainStep built).1.waits_or_rank_lt with ⟨-, hwaits⟩ | hlt
    · exact absurd hwaits hruns
    · exact (hnext y _ h).imp_right fun h' => ⟨h', hlt⟩

/-- Before a signal, a server that takes calls has an expiration thread, or will start it. -/
theorem Orderly.at_starting (h : Orderly y) (hunsignalled : y.shutdown = false)
    (hserving : y.grpc = .serving) (hnone : y.expirationThread = none) :
    y.At .starting ∨ y.At .spawning := by
  obtain ⟨st, hst⟩ := h.stage
  cases st with
  | starting => exact .inl hst
  | spawning => exact .inr hst
  | started => exact absurd hnone hst.expirationThread.1
  | serving => exact absurd hnone hst.expirationThread.1
  | joining => exact absurd hnone hst.expirationThread
  | closing => cases hunsignalled.symm.trans (h.signalled _ hst.shutdownThread (by simp))
  | _ => cases hserving.symm.trans hst.grpc

/-- **No lease stays overdue.** After each time that the server takes calls there is one when there
has been a signal, or the lease is not in the table, or it has been renewed past `T`. -/
theorem overdue_ends (env : Env) (clock : Int) (hfair : Fair acts) (L T : Int) {n : ℕ}
    (hserving : (states env clock acts n).grpc = .serving) :
    ∃ m ≥ n, (states env clock acts m).shutdown = true ∨
      ∀ lease, (states env clock acts m).clients.state.leaseManager.leases.find? L = some lease →
        T < lease.expireTime := by
  have hthere : ∀ n, (states env clock acts n).expirationThread ≠ none →
      ∃ m ≥ n, Settled L T (states env clock acts m) := by
    intro n hthread
    by_cases hsettled : Settled L T (states env clock acts n)
    · exact ⟨n, le_rfl, hsettled⟩
    · obtain ⟨hunsignalled, hoverdue⟩ := not_or.mp hsettled
      exact leadsTo_settled hfair n ⟨orderly_states n, Bool.eq_false_iff.mpr hunsignalled, hthread,
        not_not.mp hoverdue⟩
  have hsettled : ∃ m ≥ n, Settled L T (states env clock acts m) := by
    by_cases hsignalled : (states env clock acts n).shutdown = true
    · exact ⟨n, le_rfl, .inl hsignalled⟩
    by_cases hnone : (states env clock acts n).expirationThread = none
    · obtain ⟨m, hm, hthread⟩ := leadsTo_thread hfair n
        ((orderly_states n).at_starting (Bool.eq_false_iff.mpr hsignalled) hserving hnone)
      obtain ⟨m', hm', hsettled⟩ := hthere m hthread
      exact ⟨m', hm.trans hm', hsettled⟩
    · exact hthere n hnone
  obtain ⟨m, hm, hsignalled | hoverdue⟩ := hsettled
  · exact ⟨m, hm, .inl hsignalled⟩
  · exact ⟨m, hm, .inr fun lease hfind => not_le.mp fun hle => hoverdue ⟨lease, hfind, hle⟩⟩

/-- A client is granted a lease for a second. -/
def granting : List ProcessAct :=
  [.main true, .main true, .main true, .main true, .call 0 (.leaseGrant 0 ⟨1⟩), .resume 0]

/-- Everything takes its turn then; there is no signal, and the lease does not stay. -/
theorem overdue_ends_granting :
    ((states .plain 0 (turns granting) 6).clients.state.leaseManager.leases.find? 1).map
        LeaseInfo.expireTime = some 1000000000 ∧
      ∃ m ≥ 6, ∀ lease, (states .plain 0 (turns granting) m).clients.state.leaseManager.leases.find?
        1 = some lease → 1000000000 < lease.expireTime := by
  have hsignal : ∀ n, turns granting n ≠ .signal :=
    turns_ne (by simp [granting]) fun k => by rw [turn.eq_def]; split <;> simp
  have hunsignalled : ∀ n, (states .plain 0 (turns granting) n).shutdown = false := by
    intro n
    induction n with
    | zero => rfl
    | succ n ih =>
      have h : Orderly (states .plain 0 (turns granting) n) := orderly_states n
      obtain ⟨st, hst⟩ := h.stage
      exact (hst.step_shutdown_eq (hsignal n)).trans ih
  refine ⟨rfl, ?_⟩
  obtain ⟨m, hm, hsignalled | hgone⟩ :=
    overdue_ends .plain 0 (fair_turns granting) 1 1000000000 (n := 6) rfl
  · cases (hunsignalled m).symm.trans hsignalled
  · exact ⟨m, hm, hgone⟩

end Process

end EtcdLite
