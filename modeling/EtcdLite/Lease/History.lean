import EtcdLite.Lease.Expiry

/-!
# The history of the leases

What the table of leases is after any interleaving, in terms of what has been done to it: a lease
is there from its grant until it is erased, with the time to live it was granted with, and expires
that long after its last renewal; and ids are given out in ascending order, each once
(`lease_history`). So a lease that has been revoked does not come back, whatever happens
afterwards (`revoked_for_good`).
-/

namespace EtcdLite

open Server

/-- What is done to the table of leases. -/
inductive LeaseEvent where
  | granted (leaseId now ttl : Int)
  | kept (leaseId now : Int)
  | erased (leaseId : Int)
  deriving DecidableEq, Repr

namespace LeaseEvent

/-- The lease. -/
def leaseId : LeaseEvent → Int
  | .granted L _ _ | .kept L _ | .erased L => L

/-- The time to live that the lease is granted with. -/
def ttl? (L : Int) : LeaseEvent → Option Int
  | .granted L' _ ttl => if L' = L then some ttl else none
  | .kept _ _ | .erased _ => none

/-- When the lease is renewed: its grant counts. -/
def renewal? (L : Int) : LeaseEvent → Option Int
  | .granted L' now _ | .kept L' now => if L' = L then some now else none
  | .erased _ => none

/-- The id that is given out. -/
def grant? : LeaseEvent → Option Int
  | .granted L _ _ => some L
  | .kept _ _ | .erased _ => none

end LeaseEvent

/-- The time to live of a lease and when it expires, by what has been done to the table. -/
def recorded (h : List LeaseEvent) (L : Int) : Option (Int × Int) :=
  if .erased L ∈ h then none
  else
    (h.findSome? (LeaseEvent.ttl? L)).bind fun ttl =>
      (h.filterMap (LeaseEvent.renewal? L)).getLast?.map fun now => (ttl, deadline now ttl)

/-! ### One more event -/

section Recorded

variable {h : List LeaseEvent} {L L' now ttl : Int}

/-- What says nothing of the lease. -/
theorem recorded_concat_other {e : LeaseEvent} (he : e.leaseId ≠ L) :
    recorded (h ++ [e]) L = recorded h L := by
  have herased : .erased L ∈ h ++ [e] ↔ .erased L ∈ h := by
    rw [List.mem_append, List.mem_singleton, or_iff_left]
    rintro rfl
    exact he rfl
  have httl : LeaseEvent.ttl? L e = none := by
    cases e with
    | granted L' now ttl => exact if_neg he
    | kept L' now => rfl
    | erased L' => rfl
  have hrenewal : LeaseEvent.renewal? L e = none := by
    cases e with
    | granted L' now ttl => exact if_neg he
    | kept L' now => exact if_neg he
    | erased L' => rfl
  simp [recorded, herased, httl, hrenewal, List.findSome?_append]

/-- Nothing is recorded of a lease of which nothing has been said. -/
theorem recorded_concat_granted (hnew : ∀ e ∈ h, e.leaseId ≠ L) :
    recorded (h ++ [.granted L now ttl]) L = some (ttl, deadline now ttl) := by
  have herased : .erased L ∉ h ++ [.granted L now ttl] := by
    rw [List.mem_append, List.mem_singleton, or_iff_left (by simp)]
    exact fun hmem => hnew _ hmem rfl
  have httl : h.findSome? (LeaseEvent.ttl? L) = none := by
    refine List.findSome?_eq_none_iff.mpr fun e he => ?_
    cases e with
    | granted L' now ttl => exact if_neg (hnew _ he)
    | kept L' now => rfl
    | erased L' => rfl
  rw [recorded, if_neg herased, List.findSome?_append, httl]
  simp [LeaseEvent.ttl?, LeaseEvent.renewal?]

theorem recorded_concat_kept {e : Int} (hrec : recorded h L = some (ttl, e)) :
    recorded (h ++ [.kept L now]) L = some (ttl, deadline now ttl) := by
  rw [recorded] at hrec
  split_ifs at hrec with herased
  obtain ⟨ttl', httl, hrec⟩ := Option.bind_eq_some_iff.mp hrec
  obtain ⟨now', -, hpair⟩ := Option.map_eq_some_iff.mp hrec
  obtain rfl : ttl' = ttl := congrArg Prod.fst hpair
  have herased' : .erased L ∉ h ++ [.kept L now] := by
    rw [List.mem_append, List.mem_singleton, or_iff_left (by simp)]
    exact herased
  rw [recorded, if_neg herased', List.findSome?_append, httl]
  simp [LeaseEvent.renewal?]

theorem recorded_concat_erased : recorded (h ++ [.erased L]) L = none :=
  if_pos (List.mem_append_right h (List.mem_singleton_self _))

end Recorded

namespace System

/-! ### What a step does to the table -/

/-- What a step does to the table. -/
def tableEvents (y : System) : Act → List LeaseEvent
  | .grant ttl => [.granted y.server.leaseManager.nextLeaseId y.clock ttl]
  | .keepAlive L => if y.server.leaseManager.leaseExists L then [.kept L y.clock] else []
  | .resume t =>
    match y.threads t with
    | .revoking L [] _ => [.erased L]
    | _ => []
  | .kv _ | .revoke _ _ | .checkExpiration _ | .tick _ => []

/-- What has been done to the table. -/
abbrev tableHistory (y : System) (acts : List Act) : List LeaseEvent :=
  Run.log step tableEvents y acts

/-- How the table changes, and what is told of it. -/
inductive Changes (y z : System) : List LeaseEvent → Prop
  | none (hnext : z.server.leaseManager.nextLeaseId = y.server.leaseManager.nextLeaseId)
      (htimes : z.server.leaseManager.times = y.server.leaseManager.times) : Changes y z []
  | granted {now ttl : Int}
      (hnext : z.server.leaseManager.nextLeaseId = y.server.leaseManager.nextLeaseId + 1)
      (htimes : ∀ L, z.server.leaseManager.times L =
        if L = y.server.leaseManager.nextLeaseId then some (ttl, deadline now ttl)
        else y.server.leaseManager.times L) :
      Changes y z [.granted y.server.leaseManager.nextLeaseId now ttl]
  | kept {L ttl e now : Int}
      (hnext : z.server.leaseManager.nextLeaseId = y.server.leaseManager.nextLeaseId)
      (hlive : y.server.leaseManager.times L = some (ttl, e))
      (htimes : ∀ L', z.server.leaseManager.times L' =
        if L' = L then some (ttl, deadline now ttl) else y.server.leaseManager.times L') :
      Changes y z [.kept L now]
  | erased {t : ℕ} {L : Int} {Ls : List Int} (hthread : y.threads t = .revoking L [] Ls)
      (hnext : z.server.leaseManager.nextLeaseId = y.server.leaseManager.nextLeaseId)
      (htimes : ∀ L', z.server.leaseManager.times L' =
        if L' = L then Option.none else y.server.leaseManager.times L') :
      Changes y z [.erased L]

theorem changes_of_same {y z : System} (h : y.server.leaseManager.SameButKeys z.server.leaseManager) :
    Changes y z [] := .none h.nextLeaseId h.times

/-- **What a step does to the table is what is told of it.** -/
theorem changes_step (y : System) (a : Act) : Changes y (y.step a) (y.tableEvents a) := by
  cases a with
  | kv op => exact changes_of_same (exec_wiring y.server op).2
  | grant ttl => exact .granted rfl (y.server.leaseManager.times_grant y.clock ttl)
  | tick d => exact .none rfl rfl
  | revoke t L =>
    rw [step]
    split_ifs <;> exact .none rfl rfl
  | checkExpiration t =>
    rw [step]
    split_ifs <;> exact .none rfl rfl
  | keepAlive L =>
    rw [step, tableEvents]
    cases hkeep : y.server.leaseManager.keepAlive y.clock L with
    | error rc =>
      rw [keepAlive_error hkeep, if_neg]
      · exact .none rfl rfl
      · intro hlive
        obtain ⟨info, hinfo⟩ := LeaseManager.live_iff.mp (LeaseManager.leaseExists_iff.mp hlive)
        rw [LeaseManager.keepAlive, hinfo] at hkeep
        cases hkeep
    | ok r =>
      obtain ⟨ttl, lm⟩ := r
      obtain ⟨⟨e, hlive⟩, htimes⟩ := LeaseManager.times_keepAlive hkeep
      have hexists : y.server.leaseManager.Live L :=
        LeaseManager.live_iff_times.mpr (by rw [hlive]; rfl)
      rw [keepAlive_ok hkeep, if_pos (LeaseManager.leaseExists_iff.mpr hexists)]
      exact .kept (LeaseManager.keepAlive_frame hkeep).1 hlive htimes
  | resume t =>
    rw [step, tableEvents]
    generalize hz : y.resume t = z
    cases resume_cases hz with
    | idle h =>
      simp only [h]
      exact .none rfl rfl
    | collected h =>
      simp only [h]
      exact .none rfl rfl
    | missing h =>
      simp only [h]
      exact .none rfl rfl
    | copied h hkeys =>
      simp only [h]
      exact .none rfl rfl
    | deleted h =>
      simp only [h]
      exact changes_of_same (exec_wiring y.server _).2
    | erased h =>
      simp only [h]
      exact .erased h rfl (y.server.leaseManager.times_erase _)

/-! ### The invariant -/

/-- The table is as its history says. -/
structure Told (y : System) (h : List LeaseEvent) : Prop where
  next : y.server.leaseManager.nextLeaseId = (h.filterMap LeaseEvent.grant?).length + 1
  grants : h.filterMap LeaseEvent.grant? =
    (List.range (h.filterMap LeaseEvent.grant?).length).map fun n => (n : Int) + 1
  known : ∀ e ∈ h, e.leaseId < y.server.leaseManager.nextLeaseId
  times : ∀ L, y.server.leaseManager.times L = recorded h L
  /-- A lease that is being revoked has been granted. -/
  revoking : ∀ t L ks Ls, y.threads t = .revoking L ks Ls → L < y.server.leaseManager.nextLeaseId

theorem told_start (env : Env) (clock : Int) : Told (start env clock) [] where
  next := rfl
  grants := rfl
  known := nofun
  times := fun _ => rfl
  revoking := nofun

/-- An id is in the table only if it has been given out. -/
theorem Told.lt_next {y : System} {h : List LeaseEvent} (hy : Told y h) {L : Int}
    (hL : y.server.leaseManager.Live L) : L < y.server.leaseManager.nextLeaseId := by
  rw [LeaseManager.live_iff_times, hy.times, recorded] at hL
  split_ifs at hL
  · cases hL
  · obtain ⟨p, hp⟩ := Option.isSome_iff_exists.mp hL
    obtain ⟨ttl, httl, -⟩ := Option.bind_eq_some_iff.mp hp
    obtain ⟨e, he, httl⟩ := List.exists_of_findSome?_eq_some httl
    have hid : e.leaseId = L := by
      cases e with
      | granted L' now ttl =>
        rw [LeaseEvent.ttl?] at httl
        split_ifs at httl with hLL
        exact hLL
      | kept L' now => cases httl
      | erased L' => cases httl
    rw [← hid]
    exact hy.known e he

theorem nextLeaseId_le_step (y : System) (a : Act) :
    y.server.leaseManager.nextLeaseId ≤ (y.step a).server.leaseManager.nextLeaseId := by
  have h := changes_step y a
  generalize y.tableEvents a = es at h
  cases h with
  | none hnext _ => exact hnext.ge
  | granted hnext _ => omega
  | kept hnext _ _ => exact hnext.ge
  | erased _ hnext _ => exact hnext.ge

/-- A thread that revokes a lease has found it in the table. -/
theorem Told.revoking_step {y : System} {h : List LeaseEvent} (hy : Told y h) (a : Act) (t : ℕ)
    (L : Int) (ks : List Bytes) (Ls : List Int) (ht : (y.step a).threads t = .revoking L ks Ls) :
    L < (y.step a).server.leaseManager.nextLeaseId := by
  refine lt_of_lt_of_le ?_ (y.nextLeaseId_le_step a)
  have hall : ∀ t, ∀ L ks Ls, (y.step a).threads t = .revoking L ks Ls →
      L < y.server.leaseManager.nextLeaseId := by
    refine threads_step (Q := fun th => ∀ L ks Ls, th = .revoking L ks Ls →
      L < y.server.leaseManager.nextLeaseId) (fun t => hy.revoking t) (fun t L _ => nofun)
      (fun t _ => nofun) fun t ha => ?_
    generalize hz : y.resume t = z
    cases resume_cases hz with
    | idle hth =>
      intro L ks Ls hrev
      rw [hth] at hrev
      cases hrev
    | collected hth =>
      rw [setThread_self]
      nofun
    | missing hth =>
      rw [setThread_self]
      nofun
    | copied hth hkeys =>
      rw [setThread_self]
      intro L' ks' Ls' hrev
      cases hrev
      obtain ⟨S, hS, -⟩ := LeaseManager.mem_getLeaseKeys hkeys
      exact hy.lt_next (by rw [LeaseManager.Live, hS]; rfl)
    | deleted hth =>
      rw [setThread_self]
      intro L' ks' Ls' hrev
      cases hrev
      exact hy.revoking t _ _ _ hth
    | erased hth =>
      rw [setThread_self]
      nofun
  exact hall t L ks Ls ht

/-- **A step keeps the table as its history says.** -/
theorem Told.step {y : System} {h : List LeaseEvent} (hy : Told y h) (a : Act) :
    Told (y.step a) (h ++ y.tableEvents a) := by
  have hrevoking := hy.revoking_step a
  have hchanges := changes_step y a
  generalize y.tableEvents a = es at hchanges
  generalize y.step a = z at hchanges hrevoking
  -- Events that give out no id, and are about ids that have been given out.
  have hquiet : ∀ es : List LeaseEvent, es.filterMap LeaseEvent.grant? = [] →
      z.server.leaseManager.nextLeaseId = y.server.leaseManager.nextLeaseId →
      (∀ e ∈ es, e.leaseId < y.server.leaseManager.nextLeaseId) →
      (∀ L, z.server.leaseManager.times L = recorded (h ++ es) L) → Told z (h ++ es) := by
    intro es hgrants hnext hknown htimes
    refine ⟨?_, ?_, fun e he => ?_, htimes, hrevoking⟩
    · rw [hnext, List.filterMap_append, hgrants, List.append_nil]
      exact hy.next
    · rw [List.filterMap_append, hgrants, List.append_nil]
      exact hy.grants
    · rw [hnext]
      rcases List.mem_append.mp he with he | he
      · exact hy.known e he
      · exact hknown e he
  cases hchanges with
  | none hnext htimes =>
    refine hquiet [] rfl hnext nofun fun L => ?_
    rw [List.append_nil, htimes]
    exact hy.times L
  | @granted now ttl hnext htimes =>
    have hnew : ∀ e ∈ h, e.leaseId ≠ y.server.leaseManager.nextLeaseId :=
      fun e he => (hy.known e he).ne
    refine ⟨?_, ?_, fun e he => ?_, fun L => ?_, hrevoking⟩
    · rw [hnext, hy.next, List.filterMap_append, List.length_append]
      simp [LeaseEvent.grant?]
    · rw [List.filterMap_append, List.length_append, hy.grants, hy.next]
      simp [LeaseEvent.grant?, List.range_succ]
    · rw [hnext]
      rcases List.mem_append.mp he with he | he
      · have hlt := hy.known e he
        omega
      · rw [List.mem_singleton.mp he]
        exact Int.lt_add_one_of_le le_rfl
    · rw [htimes]
      split_ifs with hL
      · rw [hL, recorded_concat_granted hnew]
      · rw [recorded_concat_other (Ne.symm hL)]
        exact hy.times L
  | @kept L ttl e now hnext hlive htimes =>
    refine hquiet _ rfl hnext (fun e he => ?_) fun L' => ?_
    · rw [List.mem_singleton.mp he]
      have hexists : y.server.leaseManager.Live L :=
        LeaseManager.live_iff_times.mpr (by rw [hlive]; rfl)
      exact hy.lt_next hexists
    · rw [htimes]
      split_ifs with hL
      · rw [hL, recorded_concat_kept ((hy.times L).symm.trans hlive)]
      · rw [recorded_concat_other (Ne.symm hL)]
        exact hy.times L'
  | @erased t L Ls hthread hnext htimes =>
    refine hquiet _ rfl hnext (fun e he => ?_) fun L' => ?_
    · rw [List.mem_singleton.mp he]
      exact hy.revoking t L [] Ls hthread
    · rw [htimes]
      split_ifs with hL
      · rw [hL, recorded_concat_erased]
      · rw [recorded_concat_other (Ne.symm hL)]
        exact hy.times L'

theorem told_run (env : Env) (clock : Int) (acts : List Act) :
    Told ((start env clock).run acts) ((start env clock).tableHistory acts) :=
  Run.invariant_log step (fun _ a _ hy => hy.step a) (told_start env clock) acts

/-- **The table of leases is what its history says.** After any interleaving of any threads: the
ids that have been given out are 1, 2, 3, ..., each once and in this order, and the next follows;
and a lease is in the table exactly when it has been granted and not erased, with the time to live
it was granted with, and the deadline that its last renewal set. -/
theorem lease_history (env : Env) (clock : Int) (acts : List Act) :
    let lm := ((start env clock).run acts).server.leaseManager
    let h := (start env clock).tableHistory acts
    let grants := h.filterMap LeaseEvent.grant?
    (grants = (List.range grants.length).map (fun n => (n : Int) + 1) ∧
      lm.nextLeaseId = grants.length + 1) ∧ ∀ L, lm.times L = recorded h L := by
  intro lm h grants
  have hy := told_run env clock acts
  exact ⟨⟨hy.grants, hy.next⟩, hy.times⟩

/-! ### Revocation is for good -/

/-- The lease was granted once, and is not in the table. -/
def Dead (y : System) (L : Int) : Prop :=
  L < y.server.leaseManager.nextLeaseId ∧ ¬ y.server.leaseManager.Live L

/-- An id is not given out again. -/
theorem Dead.step {y : System} {L : Int} (h : y.Dead L) (a : Act) : (y.step a).Dead L := by
  obtain ⟨hlt, hdead⟩ := h
  refine ⟨hlt.trans_le (y.nextLeaseId_le_step a), ?_⟩
  rw [LeaseManager.live_iff_times, Bool.not_eq_true, Option.isSome_eq_false_iff,
    Option.isNone_iff_eq_none] at hdead ⊢
  have hchanges := changes_step y a
  generalize y.tableEvents a = es at hchanges
  cases hchanges with
  | none _ htimes =>
    rw [htimes]
    exact hdead
  | granted _ htimes =>
    rw [htimes, if_neg hlt.ne]
    exact hdead
  | kept _ hlive htimes =>
    rw [htimes, if_neg]
    · exact hdead
    · rintro rfl
      cases hdead.symm.trans hlive
  | erased _ _ htimes =>
    rw [htimes, hdead, ite_self]

/-- A thread that revokes a lease goes on to do so, until the lease is gone. -/
theorem revokes_step {y : System} {L : Int} {t : ℕ} (hlt : L < y.server.leaseManager.nextLeaseId)
    (h : (y.threads t).Revokes L) (a : Act) : ((y.step a).threads t).Revokes L ∨ (y.step a).Dead L := by
  by_cases ha : a = .resume t
  · subst ha
    have hle := y.nextLeaseId_le_step (.resume t)
    rw [step] at hle ⊢
    generalize hz : y.resume t = z at hle ⊢
    cases resume_cases hz with
    | idle hth => exact .inl h
    | collected hth =>
      rw [hth] at h
      cases h
    | @missing L' Ls hth =>
      rw [hth] at h
      rw [setThread_self]
      rcases List.mem_cons.mp h with rfl | hL
      · refine .inr ⟨hlt, fun hlive => ?_⟩
        -- The thread has not found it.
        rw [setThread_server] at hlive
        obtain ⟨info, hinfo⟩ := LeaseManager.live_iff.mp hlive
        have hstuck : y.resume t = y.setThread t (.revoking L
            (if y.server.leaseManager.deleteKeyCallback then info.keys.keys else []) Ls) := by
          simp only [resume, hth, LeaseManager.getLeaseKeys_known hinfo]
        have hthread := congrArg (fun z => z.threads t) (hstuck.symm.trans hz)
        simp only [setThread_self] at hthread
        cases hthread
      · exact .inl hL
    | @copied L' Ls keys hth hkeys =>
      rw [hth] at h
      rw [setThread_self]
      rcases List.mem_cons.mp h with rfl | hL
      · exact .inl (.inl rfl)
      · exact .inl (.inr hL)
    | deleted hth =>
      rw [hth] at h
      rw [setThread_self]
      exact .inl h
    | @erased L' Ls hth =>
      rw [hth] at h
      rw [setThread_self]
      rcases h with rfl | hL
      · refine .inr ⟨hlt, ?_⟩
        rw [setThread_server, Atom.exec, LeaseManager.Live, LeaseManager.keySet_erase, if_pos rfl]
        exact Bool.false_ne_true
      · exact .inl hL
  · -- No other step moves a thread that is not idle.
    refine .inl ?_
    have hbusy : (y.threads t).idle = false := by
      cases hth : y.threads t with
      | collecting now => rfl
      | pending Ls =>
        rw [hth] at h
        cases Ls with
        | nil => cases h
        | cons L' Ls => rfl
      | revoking L' ks Ls => rfl
    cases a with
    | kv op => exact h
    | grant ttl => exact h
    | keepAlive L' => exact h
    | tick d => exact h
    | resume t' =>
      rw [step, resume_other y (by rintro rfl; exact ha rfl)]
      exact h
    | revoke t' L' =>
      rw [step]
      split_ifs with hidle
      · rw [setThread_threads, if_neg]
        · exact h
        · rintro rfl
          rw [hidle] at hbusy
          cases hbusy
      · exact h
    | checkExpiration t' =>
      rw [step]
      split_ifs with hidle
      · rw [setThread_threads, if_neg]
        · exact h
        · rintro rfl
          rw [hidle] at hbusy
          cases hbusy
      · exact h

/-- **What is revoked does not come back.** In any interleaving, let a thread be about to revoke a
lease that there is, or in the middle of it, for a client or in `CheckExpiration`. Once the thread
is done, the lease is gone for good: whatever any thread does before and afterwards, keep-alives of
the lease included, it is not in the table again. -/
theorem revoked_for_good (env : Env) (clock : Int) (before between after : List Act) {t : ℕ} {L : Int}
    (hexists : ((start env clock).run before).server.leaseManager.leaseExists L = true)
    (hrevokes : (((start env clock).run before).threads t).Revokes L)
    (hdone : (((start env clock).run (before ++ between)).threads t).idle = true) :
    ((start env clock).run (before ++ between ++ after)).server.leaseManager.leaseExists L =
      false := by
  have hlt := (told_run env clock before).lt_next (LeaseManager.leaseExists_iff.mp hexists)
  rw [run, Run.final_append] at hdone
  rw [run, Run.final_append, Run.final_append]
  rw [run] at hrevokes hlt
  generalize Run.final step (start env clock) before = y at hrevokes hdone hlt ⊢
  have hinv : ∀ y : System, L < y.server.leaseManager.nextLeaseId ∧
      ((y.threads t).Revokes L ∨ y.Dead L) → ∀ acts, ((y.run acts).threads t).Revokes L ∨
        (y.run acts).Dead L := by
    intro y hy acts
    refine (Run.invariant step (I := fun y => L < y.server.leaseManager.nextLeaseId ∧
      ((y.threads t).Revokes L ∨ y.Dead L)) (fun y a hy => ?_) hy acts).2
    obtain ⟨hlt, hrev | hdead⟩ := hy
    · exact ⟨hlt.trans_le (y.nextLeaseId_le_step a), revokes_step hlt hrev a⟩
    · exact ⟨hlt.trans_le (y.nextLeaseId_le_step a), .inr (hdead.step a)⟩
  have hdead : (y.run between).Dead L := by
    refine (hinv y ⟨hlt, .inl hrevokes⟩ between).resolve_left fun hrev => ?_
    cases hth : (y.run between).threads t with
    | collecting now =>
      rw [hth] at hrev
      cases hrev
    | pending Ls =>
      rw [hth] at hrev hdone
      cases Ls with
      | nil => cases hrev
      | cons L' Ls => cases hdone
    | revoking L' ks Ls =>
      rw [hth] at hdone
      cases hdone
  have hafter := Run.invariant step (I := fun y => y.Dead L) (fun y a hy => hy.step a) hdead after
  rw [Bool.eq_false_iff, ne_eq, LeaseManager.leaseExists_iff]
  exact hafter.2

/-- A lease expires, is collected and revoked, and its client goes on to keep it alive. -/
theorem revoked_for_good_expired :
    ((start .plain 0).run
      ([.grant 1, .tick 1000000000, .checkExpiration 0, .resume 0] ++
        [.keepAlive 1, .resume 0, .resume 0] ++ [.keepAlive 1, .grant 1])).server.leaseManager.leaseExists
        1 = false :=
  revoked_for_good (t := 0) .plain 0 _ _ _ (by decide) (List.mem_singleton_self 1) (by decide)

end System

end EtcdLite
