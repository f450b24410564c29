import EtcdLite.Kv.Answers
import EtcdLite.Lease.Index
import EtcdLite.Model.KVService

/-!
# The revision in a response header

A handler of the KV service calls the store, and then reads the store's revision for the
header of its response, when the call has let go of the lock. Other operations may fall in
between (`KvSystem`). The header then names their revision: that of a put or a deletion is
right exactly when there are none, and that of a range query exactly when they leave its
answer as it was (`header_right_iff`).
-/

namespace EtcdLite

open Server

/-! ### The handlers, in two steps -/

/-- A request to `Put`, `Range` or `DeleteRange`. -/
inductive KvRequest where
  | put (r : PutRequest)
  | range (r : RangeRequest)
  | deleteRange (r : DeleteRangeRequest)

/-- The operation of the store that it makes, if it writes. -/
def KvRequest.op : KvRequest → Option KvOp
  | .put r => some (.put r.key r.value r.lease (if r.prevKv then some {} else none))
  | .range _ => none
  | .deleteRange r => some (.delete r.key r.rangeEnd true)

/-- The output of the call to the store. -/
inductive KvOutput where
  | prevKv (p : Option KeyValue)
  | kvs (kvs : List KeyValue)

/-- A response. -/
inductive KvResponse where
  | put (r : PutResponse)
  | range (r : RangeResponse)
  | deleteRange (r : DeleteRangeResponse)
  deriving DecidableEq

namespace KVService

/-- The call to the store. -/
def call (s : Server) : KvRequest → KvOutput × Server
  | .put r =>
    let (prevKv, s) := s.put r.key r.value r.lease (if r.prevKv then some {} else none)
    (.prevKv prevKv, s)
  | .range r =>
    (.kvs (s.kvStore.range r.key r.rangeEnd r.limit r.countOnly r.keysOnly), s)
  | .deleteRange r =>
    let (prevKvs, s) := s.delete r.key r.rangeEnd true
    (.kvs (prevKvs.getD []), s)

/-- What the handler makes of the output, the header being filled now. -/
def respond (s : Server) : KvRequest → KvOutput → Option KvResponse
  | .put r, .prevKv prevKv =>
    some (.put { header := some (responseHeader s), prevKv := if r.prevKv then prevKv else none })
  | .range _, .kvs kvs =>
    some (.range { header := some (responseHeader s), kvs := kvs, count := kvs.length, more := false })
  | .deleteRange r, .kvs prevKvs =>
    some (.deleteRange { header := some (responseHeader s), deleted := prevKvs.length,
                         prevKvs := if r.prevKv then prevKvs else [] })
  | .put _, .kvs _ | .range _, .prevKv _ | .deleteRange _, .prevKv _ => none

/-- The handler, run to completion. -/
def handle (s : Server) : KvRequest → KvResponse × Server
  | .put r => let (resp, s) := put s r; (.put resp, s)
  | .range r => (.range (range s r), s)
  | .deleteRange r => let (resp, s) := deleteRange s r; (.deleteRange resp, s)

/-- The two steps of a handler, with nothing in between. -/
theorem respond_call (s : Server) (req : KvRequest) :
    respond (call s req).2 req (call s req).1 = some (handle s req).1 ∧
      (call s req).2 = (handle s req).2 := by
  cases req <;> exact ⟨rfl, rfl⟩

/-- What the call does to the store. -/
theorem call_snd (s : Server) (req : KvRequest) :
    (call s req).2 = Run.final KvOp.exec s req.op.toList := by
  cases req <;> rfl

end KVService

/-- The server, and for each client whose handler has called the store and is still to respond,
its request and the output. -/
structure KvSystem where
  server : Server
  pending : ℕ → Option (KvRequest × KvOutput)

namespace KvSystem

/-- The start: a new server, and no handler at work. -/
def start (env : Env) : KvSystem := { server := .new env, pending := fun _ => none }

/-- What can happen next. -/
inductive Action where
  /-- Another thread runs an atomic section. -/
  | atom (a : Atom)
  /-- The handler of a client calls the store. -/
  | call (client : ℕ) (req : KvRequest)
  /-- The handler of a client responds. -/
  | respond (client : ℕ)

/-- One step. -/
def step (y : KvSystem) : Action → KvSystem
  | .atom a => { y with server := a.exec y.server }
  | .call client req =>
    if y.pending client = none then
      let (output, s) := KVService.call y.server req
      { y with server := s, pending := Function.update y.pending client (some (req, output)) }
    else y
  | .respond client => { y with pending := Function.update y.pending client none }

/-- The state a run leads to. -/
abbrev run (y : KvSystem) (acts : List Action) : KvSystem := Run.final step y acts

/-- The response of a client's handler, if it responds now. -/
def response (y : KvSystem) (client : ℕ) : Option KvResponse :=
  (y.pending client).bind fun p => KVService.respond y.server p.1 p.2

/-- The operation of the store that a step executes. -/
def executed (y : KvSystem) : Action → List KvOp
  | .atom (.kv op) => [op]
  | .call client req => if y.pending client = none then req.op.toList else []
  | .atom _ | .respond _ => []

/-! ### The store and its operations -/

/-- The store after the operations at revisions up to `R`: the first operation makes revision 2. -/
def storeAt (env : Env) (ops : List KvOp) (R : Int) : KVStore :=
  (Run.final KvOp.exec (Server.new env) (ops.take (R - 1).toNat)).kvStore

theorem final_kvStore_congr {s t : Server} (h : s.kvStore = t.kvStore) (ops : List KvOp) :
    (Run.final KvOp.exec s ops).kvStore = (Run.final KvOp.exec t ops).kvStore := by
  induction ops generalizing s t with
  | nil => exact h
  | cons op ops ih => exact ih (exec_kvStore_congr h op)

theorem final_revision (s : Server) (ops : List KvOp) :
    (Run.final KvOp.exec s ops).kvStore.revision = s.kvStore.revision + ops.length := by
  induction ops generalizing s with
  | nil => simp
  | cons op ops ih =>
    rw [Run.final_cons, ih, exec_revision, List.length_cons]
    push_cast
    omega

/-- The store changes by the operations that are executed. -/
theorem step_kvStore (y : KvSystem) (a : Action) :
    (y.step a).server.kvStore = (Run.final KvOp.exec y.server (y.executed a)).kvStore := by
  cases a with
  | atom a =>
    cases a with
    | kv op => rfl
    | grant now ttl => rfl
    | keepAlive now leaseId =>
      obtain ⟨lm, hlm⟩ := keepAlive_rest y.server now leaseId
      show (y.server.keepAlive now leaseId).kvStore = y.server.kvStore
      rw [hlm]
    | erase leaseId => rfl
  | call client req =>
    rw [step, executed]
    split_ifs
    · exact congrArg Server.kvStore (KVService.call_snd y.server req)
    · rfl
  | respond client => rfl

theorem run_kvStore (y : KvSystem) (acts : List Action) : (y.run acts).server.kvStore =
    (Run.final KvOp.exec y.server (Run.log step executed y acts)).kvStore := by
  induction acts generalizing y with
  | nil => rfl
  | cons a acts ih =>
    rw [run, Run.final_cons, ih, Run.log, Run.final_append]
    exact final_kvStore_congr (step_kvStore y a) _

/-- The store is what the operations so far make of a new one. -/
theorem storeAt_run (env : Env) (acts : List Action) :
    storeAt env (Run.log step executed (start env) acts) ((start env).run acts).server.kvStore.revision =
      ((start env).run acts).server.kvStore := by
  have hstore := run_kvStore (start env) acts
  have hrev := congrArg KVStore.revision hstore
  rw [final_revision] at hrev
  have hone : (start env).server.kvStore.revision = 1 := rfl
  rw [storeAt, hstore, List.take_of_length_le]
  · rfl
  · rw [final_revision, hone]
    omega

/-- A request that is pending stays so until its response. -/
theorem pending_run {y : KvSystem} {client : ℕ} {p : KvRequest × KvOutput}
    (h : y.pending client = some p) {acts : List Action} (hacts : .respond client ∉ acts) :
    (y.run acts).pending client = some p := by
  induction acts generalizing y with
  | nil => exact h
  | cons a acts ih =>
    rw [List.mem_cons, not_or] at hacts
    obtain ⟨ha, hacts⟩ := hacts
    refine ih ?_ hacts
    cases a with
    | atom a => exact h
    | call client' req =>
      rw [step]
      split_ifs with hfree
      · have hne : client ≠ client' := by
          rintro rfl
          cases hfree.symm.trans h
        exact (Function.update_of_ne hne ..).trans h
      · exact h
    | respond client' =>
      have hne : client ≠ client' := by
        rintro rfl
        exact ha rfl
      exact (Function.update_of_ne hne ..).trans h

/-! ### The header -/

/-- The header names the revision at which the request was applied. The call is made in the
state `s`, and these are all the operations of the run: the revision is the one that the put
gives its key, or the one that the deletion makes; or it is one at which the store has exactly
the key-values of the response. -/
def RightHeader (env : Env) (ops : List KvOp) (s : Server) : KvRequest → KvResponse → Prop
  | .put r, .put resp => resp.header.map ResponseHeader.revision =
    ((KVService.call s (.put r)).2.data r.key).map KeyInfo.modRevision
  | .range r, .range resp => ∃ header, resp.header = some header ∧ resp.kvs =
    (storeAt env ops header.revision).range r.key r.rangeEnd r.limit r.countOnly r.keysOnly
  | .deleteRange r, .deleteRange resp => resp.header.map ResponseHeader.revision =
    some (KVService.call s (.deleteRange r)).2.kvStore.revision
  | .put _, _ | .range _, _ | .deleteRange _, _ => False

/-- The operations that fall between the call, made in the state `s`, and the response leave
nothing to tell apart: there are none, or, for a range query, their writes spare what it shows. -/
def Untouched (s : Server) (ops : List KvOp) : KvRequest → Prop
  | .put _ | .deleteRange _ => ops = []
  | .range r => r.Spared s.data (Run.log KvOp.exec KvOp.writes s ops)

/-- **A response header is right exactly when nothing falls in between that matters.** In any
interleaving of the handlers of any number of clients, with each other and with the other
threads: the response of a handler names the revision its request was applied at if and only
if no operation of the store is executed between its call and its response, or, for a range
query, the puts and deletions of those that are spare the keys that it gets to. -/
theorem header_right_iff (env : Env) (before between : List Action) {client : ℕ} (req : KvRequest)
    (hfree : ((start env).run before).pending client = none)
    (hopen : Action.respond client ∉ between) :
    let y := (start env).run before
    let y' := y.step (.call client req)
    let all := Run.log step executed (start env) (before ++ .call client req :: between)
    ∃ resp, (y'.run between).response client = some resp ∧
      (RightHeader env all y.server req resp ↔
        Untouched y.server (Run.log step executed y' between) req) := by
  intro y y' all
  have hstep : y' = { server := (KVService.call y.server req).2
                      pending := Function.update y.pending client
                        (some (req, (KVService.call y.server req).1)) } := if_pos hfree
  have hpending : (y'.run between).pending client = some (req, (KVService.call y.server req).1) := by
    refine pending_run ?_ hopen
    rw [hstep]
    exact Function.update_self ..
  have hresponse : (y'.run between).response client =
      KVService.respond (y'.run between).server req (KVService.call y.server req).1 := by
    rw [response, hpending]
    rfl
  have hserver : y'.server = (KVService.call y.server req).2 := by rw [hstep]
  have hstore := run_kvStore y' between
  rw [hserver] at hstore
  have hrev := congrArg KVStore.revision hstore
  rw [final_revision] at hrev
  have hall : storeAt env all (y'.run between).server.kvStore.revision =
      (y'.run between).server.kvStore := by
    have hrun : (start env).run (before ++ .call client req :: between) = y'.run between :=
      Run.final_append ..
    rw [← hrun]
    exact storeAt_run env _
  rw [hresponse]
  cases req with
  | put r =>
    refine ⟨_, rfl, ?_⟩
    have hmod : ((KVService.call y.server (.put r)).2.data r.key).map KeyInfo.modRevision =
        some (y.server.kvStore.revision + 1) := by
      show ((y.server.put r.key r.value r.lease (if r.prevKv then some {} else none)).2.kvStore.data.find?
        r.key).map KeyInfo.modRevision = _
      rw [put_kvStore]
      simp [putInfo]
    have hcall : (KVService.call y.server (.put r)).2.kvStore.revision =
        y.server.kvStore.revision + 1 :=
      exec_revision y.server (.put r.key r.value r.lease (if r.prevKv then some {} else none))
    simp only [RightHeader, Untouched, Option.map_some, KVService.responseHeader,
      KVStore.currentRevision, hmod, hrev, hcall, Option.some.injEq, ← List.length_eq_zero_iff]
    omega
  | deleteRange r =>
    refine ⟨_, rfl, ?_⟩
    simp only [RightHeader, Untouched, Option.map_some, KVService.responseHeader,
      KVStore.currentRevision, hrev, Option.some.injEq, ← List.length_eq_zero_iff]
    omega
  | range r =>
    refine ⟨_, rfl, ?_⟩
    have hsame : (KVService.call y.server (.range r)).2 = y.server := rfl
    rw [hsame] at hstore
    simp only [RightHeader, Untouched, Option.some.injEq, exists_eq_left', KVService.responseHeader,
      KVStore.currentRevision]
    rw [hall, hstore, eq_comm]
    have hdated : y.server.Dated :=
      ((dated_new env).run _).congr (run_kvStore (start env) before)
    exact RangeRequest.range_eq_iff hdated (hdated.run _) (data_run y.server _) writes_after r

/-- A query of one key, with a put of another in between. -/
theorem header_right_range :
    let y := (start .plain).run [.call 0 (.put { key := [107], value := [118] }), .respond 0]
    let y' := y.step (.call 1 (.range { key := [107] }))
    let between : List Action := [.atom (.kv (.put [108] [118] 0 none))]
    let all := Run.log step executed (start .plain)
      ([.call 0 (.put { key := [107], value := [118] }), .respond 0] ++
        .call 1 (.range { key := [107] }) :: between)
    ∃ resp, (y'.run between).response 1 = some resp ∧
      (RightHeader .plain all y.server (.range { key := [107] }) resp ↔
        Untouched y.server (Run.log step executed y' between) (.range { key := [107] })) :=
  header_right_iff .plain [.call 0 (.put { key := [107], value := [118] }), .respond 0]
    [.atom (.kv (.put [108] [118] 0 none))] (.range { key := [107] }) rfl (by simp)

/-- **A header names the revision of another client's put**: a put makes revision 2, and its
response says 3; and a query finds nothing at a revision at which its key is in the store. -/
theorem header_wrong :
    let put : KvRequest := .put { key := [107], value := [118] }
    let range : KvRequest := .range { key := [107] }
    let header (revision : Int) : ResponseHeader :=
      { clusterId := 1, memberId := 1, revision := revision, raftTerm := 1 }
    (((start .plain).run [.call 0 put, .call 1 (.put { key := [108], value := [119] })]).response 0 =
        some (.put { header := some (header 3) }) ∧
      ¬ RightHeader .plain [.put [107] [118] 0 none, .put [108] [119] 0 none] (.new .plain) put
        (.put { header := some (header 3) })) ∧
    ((start .plain).run [.call 0 range, .call 1 put]).response 0 =
        some (.range { header := some (header 2) }) ∧
      ¬ RightHeader .plain [.put [107] [118] 0 none] (.new .plain) range
        (.range { header := some (header 2) }) := by
  intro put range header
  refine ⟨⟨by decide, ?_⟩, by decide, ?_⟩
  · intro hright
    have hrev : some (3 : Int) = some 2 := hright
    exact absurd hrev (by decide)
  · rintro ⟨header', hheader, hkvs⟩
    cases hheader
    exact absurd hkvs (by decide)

end KvSystem

end EtcdLite
