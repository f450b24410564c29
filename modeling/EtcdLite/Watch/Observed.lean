import EtcdLite.Kv.Headers
import EtcdLite.Kv.Standing
import EtcdLite.Watch.Life

/-!
# What a modification revision identifies

Clients see key-values in full in the answers of range queries, as previous key-values, and in
events. A client that keeps them by key and modification revision relies on there being only one
for each: that a modification revision identifies a write of the key.

The server breaks this in one place. A transaction may put a key more than once, all at its own
revision, and show it in between (`observed_twice`). It breaks it nowhere else: whatever is
handed out in a run is identified by its key and modification revision, in every state and
whatever is read next, exactly when each transaction shows a key that it puts always alike, in
its responses and at its end (`identified_iff`).
-/

namespace EtcdLite

open Server

/-! ### What clients see -/

/-- The key-values that the response of a handler carries in full. -/
def KvRequest.fullKvs : KvRequest → KvResponse → List KeyValue
  | .range r, .range resp => if r.keysOnly || r.countOnly then [] else resp.kvs
  | .put _, .put resp => resp.prevKv.toList.filter fun kv => kv ≠ {}
  | .deleteRange _, .deleteRange resp => resp.prevKvs
  | _, _ => []

/-- The key-values that the events of a response carry in full: those that are put, and previous
ones. -/
def WatchResponse.fullKvs (response : WatchResponse) : List KeyValue :=
  response.events.flatMap fun event =>
    (if event.type = .PUT then [event.kv] else []) ++ event.prevKv.toList

/-- The key and the modification revision of a key-value identify it. -/
def Identified (S : Set KeyValue) : Prop :=
  ∀ a ∈ S, ∀ b ∈ S, a.key = b.key → a.modRevision = b.modRevision →
    a.value = b.value ∧ a.version = b.version ∧ a.lease = b.lease ∧
      a.createRevision = b.createRevision

theorem Identified.mono {S T : Set KeyValue} (h : Identified T) (hST : S ⊆ T) : Identified S :=
  fun a ha b hb => h a (hST ha) b (hST hb)

/-- A step that is not a request to the KV service: of those that change the store there is only
the deletion of a key by a revocation. -/
def WatchSystem.Action.Internal (a : WatchSystem.Action) : Prop :=
  ∀ op, a = .atom (.kv op) → ∃ key, op = .delete key [] false

namespace Observed

/-- What can happen next. -/
inductive Action where
  /-- A client calls `Put`, `Range` or `DeleteRange`. -/
  | request (req : KvRequest)
  /-- A client calls `Txn`. -/
  | txn (req : TxnRequest)
  /-- Anything else: the handler of a stream takes a step, or a lease is granted, kept alive or
  revoked. -/
  | other (a : WatchSystem.Action) (internal : a.Internal)

/-- What it does to the server and its handlers, if anything. -/
def Action.toStep : Action → Option WatchSystem.Action
  | .request req => req.op.map fun op => .atom (.kv op)
  | .txn req => some (.atom (.kv (.txn req.compare req.success req.failure)))
  | .other a _ => some a

/-- One step. -/
def step (y : WatchSystem) (a : Action) : WatchSystem := a.toStep.elim y y.step

/-- The server after a request is what the handler leaves. -/
theorem step_request (y : WatchSystem) (req : KvRequest) :
    (step y (.request req)).server = (KVService.handle y.server req).2 := by
  cases req <;> rfl

theorem step_txn (y : WatchSystem) (req : TxnRequest) :
    (step y (.txn req)).server = (KVService.txn y.server req).2 := rfl

/-- The key-values in full that the response of a step carries, if it is a request. -/
def responds (y : WatchSystem) : Action → List KeyValue
  | .request req => req.fullKvs (KVService.handle y.server req).1
  | .txn req =>
    let response := (KVService.txn y.server req).1
    allFullKvs (if response.succeeded then req.success else req.failure) response.responses
  | .other _ _ => []

/-- The key-values in full that events on some stream carry. -/
def notified (y : WatchSystem) : Set KeyValue :=
  {kv | ∃ sid, ∃ response ∈ (y.server.streams sid).written, kv ∈ response.fullKvs}

/-- The key-values that have been handed out in full when a run ends. -/
def handedOut (y : WatchSystem) (acts : List Action) : Set KeyValue :=
  {kv | kv ∈ Run.log step responds y acts} ∪ notified (Run.final step y acts)

/-- The operations that a transaction executes. -/
def chosen (y : WatchSystem) (req : TxnRequest) : List RequestOp :=
  y.server.chosenOps req.compare req.success req.failure

/-- If the step is a transaction, then wherever it shows a key that it puts, in its responses or
at its end, the key stands alike: it was created by the transaction or was not, and has been put
as often since, last with the same value and lease. -/
def ShowsAlike (y : WatchSystem) : Action → Prop
  | .txn req => ∀ k a b,
    Shown (y.server.kvStore.revision + 1) y.server.data k a [] (chosen y req) →
      Shown (y.server.kvStore.revision + 1) y.server.data k b [] (chosen y req) → a = b
  | .request _ | .other _ _ => True

/-! ### What the responses to a step carry -/

/-- The request as an operation of a transaction. -/
def toRequestOp : KvRequest → RequestOp
  | .put r => .requestPut r
  | .range r => .requestRange r
  | .deleteRange r => .requestDeleteRange r

/-- A handler hands out what a transaction does for the same operation. -/
theorem fullKvs_handle (s : Server) (revision : Int) (req : KvRequest) :
    req.fullKvs (KVService.handle s req).1 =
      (toRequestOp req).fullKvs (s.txnOp revision (toRequestOp req)).1 := by
  cases req with
  | put r =>
    simp only [KvRequest.fullKvs, KVService.handle, KVService.put, put_fst, toRequestOp,
      RequestOp.fullKvs, txnOp, txnPut]
    cases r.prevKv <;> rfl
  | range r => rfl
  | deleteRange r =>
    simp only [KvRequest.fullKvs, KVService.handle, KVService.deleteRange, delete_fst, toRequestOp,
      RequestOp.fullKvs, txnOp, txnDeleteRange, if_true, Option.getD_some]
    cases r.prevKv <;> rfl

/-- What the handlers of `Put`, `Range` and `DeleteRange` hand out was in the store. -/
theorem mem_responds_request {y : WatchSystem} (h : y.server.Dated) {req : KvRequest}
    {kv : KeyValue} (hkv : kv ∈ responds y (.request req)) :
    ∃ k info, y.server.data k = some info ∧ info.kv = kv := by
  rw [responds, fullKvs_handle y.server y.server.kvStore.revision] at hkv
  obtain ⟨k, info, hinfo, -, rfl⟩ := (mem_fullKvs h _ _).mp hkv
  exact ⟨k, info, hinfo, rfl⟩

/-- The responses of a transaction, as its loop gives them. -/
theorem responds_txn (y : WatchSystem) (req : TxnRequest) : responds y (.txn req) =
    allFullKvs (chosen y req) ((y.server.setRevision (y.server.kvStore.revision + 1)).txnOps
      (y.server.kvStore.revision + 1) (chosen y req)).1 := by
  simp only [responds, KVService.txn, txn_succeeded, txn_responses]
  rfl

/-- The data after a transaction, as its loop leaves it. -/
theorem data_step_txn (y : WatchSystem) (req : TxnRequest) : (step y (.txn req)).server.data =
    ((y.server.setRevision (y.server.kvStore.revision + 1)).txnOps
      (y.server.kvStore.revision + 1) (chosen y req)).2.data := by
  rw [step_txn, KVService.txn, txn_snd]
  rfl

/-- A range query for a key hands out its entry. -/
theorem mem_responds_range {y : WatchSystem} {k : Bytes} {info : KeyInfo}
    (hk : y.server.data k = some info) :
    info.kv ∈ responds y (.request (.range { key := k })) := by
  exact (y.server.kvStore.mem_range k []).mpr ⟨k, info, hk, keyInRange_nil.mpr rfl, rfl⟩

/-! ### What a step makes known -/

/-- What is known at some point of a run: what has been handed out, what a handler is about to
send, and what is stored. -/
inductive Known (y : WatchSystem) (l : List KeyValue) : KeyValue → Prop
  | response {kv : KeyValue} (h : kv ∈ l) : Known y l kv
  | event {kv : KeyValue} (h : kv ∈ notified y) : Known y l kv
  | sending {kv : KeyValue} {sid : StreamId} {w : Watcher} {kvs : List KeyValue}
      (h : y.handlers sid = .sending w kvs) (hkv : kv ∈ kvs) : Known y l kv
  | stored {k : Bytes} {info : KeyInfo} (h : y.server.data k = some info) : Known y l info.kv

/-- The key-values that a step makes, and that can be known after it. -/
inductive Made (y : WatchSystem) : Action → KeyValue → Prop
  | put {r : PutRequest} : Made y (.request (.put r))
      (putInfo (y.server.data r.key) r.key r.value r.lease (y.server.kvStore.revision + 1)).kv
  | txn {req : TxnRequest} {k : Bytes} {a : Standing}
      (h : Shown (y.server.kvStore.revision + 1) y.server.data k a [] (chosen y req)) :
      Made y (.txn req) (a.kv y.server.data k (y.server.kvStore.revision + 1))

/-- A put is a request. -/
theorem made_put (y : WatchSystem) {a : Action} {key value : Bytes} {lease : Int}
    {prevKv : Option KeyValue} (ha : a.toStep = some (.atom (.kv (.put key value lease prevKv)))) :
    Made y a (putInfo (y.server.data key) key value lease (y.server.kvStore.revision + 1)).kv := by
  cases a with
  | request req =>
    cases req with
    | put r =>
      cases ha
      exact .put
    | range r => cases ha
    | deleteRange r => cases ha
  | txn req => cases ha
  | other a internal =>
    obtain ⟨k, hk⟩ := internal _ (Option.some.inj ha)
    cases hk

/-- A transaction is a request. -/
theorem eq_txn {a : Action} {compares : List Compare} {success failure : List RequestOp}
    (ha : a.toStep = some (.atom (.kv (.txn compares success failure)))) :
    a = .txn ⟨compares, success, failure⟩ := by
  cases a with
  | request req => cases req <;> cases ha
  | txn req =>
    cases ha
    rfl
  | other a internal =>
    obtain ⟨k, hk⟩ := internal _ (Option.some.inj ha)
    cases hk

section KnownStep

variable {y : WatchSystem} {l : List KeyValue} {kv : KeyValue}

/-- What a transaction hands out, and leaves, was stored before or is made by it. -/
theorem txn_known (h : y.server.Dated) (req : TxnRequest)
    (hkv : kv ∈ responds y (.txn req) ∨
      ∃ k info, (step y (.txn req)).server.data k = some info ∧ info.kv = kv) :
    Known y l kv ∨ Made y (.txn req) kv := by
  rw [responds_txn, data_step_txn] at hkv
  rcases txnOps_shows h.midTxn (chosen y req) hkv with ⟨k, info, hinfo, rfl⟩ | ⟨k, a, ha, rfl⟩
  · exact .inl (.stored hinfo)
  · exact .inr (.txn ha)

/-- What is stored after a step was stored before it, or is made by it. -/
theorem stored_step (h : y.server.Dated) {a : Action} {k : Bytes} {info : KeyInfo}
    (hk : (step y a).server.data k = some info) : Known y l info.kv ∨ Made y a info.kv := by
  cases ha : a.toStep with
  | none =>
    rw [step, ha] at hk
    exact .inl (.stored hk)
  | some b =>
    rcases y.step_kvStore b with ⟨op, rfl, -⟩ | ⟨-, hstore⟩
    · cases op with
      | put key value lease prevKv =>
        have hdata : (step y a).server.data =
            Function.update y.server.data key (some (putInfo (y.server.data key) key value lease
              (y.server.kvStore.revision + 1))) := by
          rw [step, ha]
          exact data_exec y.server (.put key value lease prevKv)
        rw [hdata] at hk
        by_cases hkey : k = key
        · subst hkey
          rw [Function.update_self] at hk
          rw [← Option.some.inj hk]
          exact .inr (made_put y ha)
        · rw [Function.update_of_ne hkey] at hk
          exact .inl (.stored hk)
      | delete key rangeEnd prevKvs =>
        have hdata : (step y a).server.data k =
            if keyInRange k key rangeEnd then none else y.server.data k := by
          rw [step, ha]
          exact congrFun (data_exec y.server (.delete key rangeEnd prevKvs)) k
        rw [hdata] at hk
        split_ifs at hk
        exact .inl (.stored hk)
      | txn compares success failure =>
        obtain rfl := eq_txn ha
        exact txn_known h _ (.inr ⟨k, info, hk, rfl⟩)
    · have hdata : (step y a).server.data = y.server.data := by
        rw [step, ha]
        exact congrArg (fun s : KVStore => s.data.find?) hstore
      rw [hdata] at hk
      exact .inl (.stored hk)

/-- What the response to a step carries was stored before it, or is made by it. -/
theorem responds_known (h : y.server.Dated) {a : Action} (hkv : kv ∈ responds y a) :
    Known y l kv ∨ Made y a kv := by
  cases a with
  | request req =>
    obtain ⟨k, info, hinfo, rfl⟩ := mem_responds_request h hkv
    exact .inl (.stored hinfo)
  | txn req => exact txn_known h req (.inl hkv)
  | other a internal => cases hkv

/-- What a step writes to streams was known before it, or is a put that it makes. -/
theorem fullKvs_writes {b : WatchSystem.Action} {e : StreamId × WatchResponse}
    (he : e ∈ y.writes b) (hkv : kv ∈ e.2.fullKvs) : Known y l kv ∨
      ∃ key value lease prevKv, b = .atom (.kv (.put key value lease prevKv)) ∧
        (putInfo (y.server.data key) key value lease (y.server.kvStore.revision + 1)).kv = kv := by
  unfold WatchSystem.writes at he
  split at he
  case h_1 op =>
    obtain ⟨w, hw, -⟩ := mem_toWrites he
    cases op with
    | put key value lease prevKv =>
      obtain ⟨⟨i, w'⟩, -, heq⟩ := List.mem_map.mp hw
      rw [← congrArg Prod.snd heq] at hkv
      rcases List.mem_append.mp (show kv ∈ ([_] ++ Option.toList _) ++ [] from hkv) with h | h
      · rcases List.mem_append.mp h with h | h
        · exact .inr ⟨key, value, lease, prevKv, rfl, (List.mem_singleton.mp h).symm⟩
        · split_ifs at h
          · obtain ⟨info, hinfo, rfl⟩ := Option.map_eq_some_iff.mp (Option.mem_toList.mp h)
            exact .inl (.stored hinfo)
          · cases h
      · cases h
    | delete key rangeEnd prevKvs =>
      rw [KvOp.sends] at hw
      split_ifs at hw
      · obtain ⟨x, -, hx⟩ := List.mem_flatMap.mp hw
        obtain ⟨⟨i, w'⟩, -, heq⟩ := List.mem_map.mp hx
        rw [← congrArg Prod.snd heq] at hkv
        cases hkv
      · cases hw
    | txn compares success failure => cases hw
  case h_2 sid watchId =>
    split_ifs at he
    · obtain ⟨w, hw, -⟩ := mem_toWrites he
      obtain ⟨w', -, heq⟩ := List.mem_map.mp hw
      rw [← congrArg Prod.snd heq] at hkv
      cases hkv
    · cases he
  case h_3 sid =>
    split at he
    case h_1 w revision hh =>
      rw [eq_of_mem_toWrites he] at hkv
      cases hkv
    case h_2 w kv' kvs hh =>
      rw [eq_of_mem_toWrites he] at hkv
      obtain rfl := List.mem_singleton.mp (show kv ∈ [kv'] from hkv)
      exact .inl (.sending hh List.mem_cons_self)
    case h_3 watchId header hh =>
      rw [congrArg Prod.snd (List.mem_singleton.mp he)] at hkv
      cases hkv
    all_goals cases he
  all_goals cases he

/-- What has been sent in events after a step was known before it, or is made by it. -/
theorem notified_step (h : y.Orderly) {a : Action} (hkv : kv ∈ notified (step y a)) :
    Known y l kv ∨ Made y a kv := by
  cases ha : a.toStep with
  | none =>
    rw [step, ha] at hkv
    exact .inl (.event hkv)
  | some b =>
    rw [step, ha] at hkv
    obtain ⟨sid, response, hmem, hresponse⟩ := hkv
    rw [Option.elim_some, WatchSystem.step_streams h] at hmem
    rcases written_writeAll hmem with hmem | ⟨e, he, rfl⟩
    · exact .inl (.event ⟨sid, response, hmem, hresponse⟩)
    · rcases fullKvs_writes he hresponse with hknown | ⟨key, value, lease, prevKv, rfl, rfl⟩
      · exact .inl hknown
      · exact .inr (made_put y ha)

/-- What a handler is about to send after a step was known before it. -/
theorem sending_step {a : Action} {sid : StreamId} {w : Watcher}
    {kvs : List KeyValue} (hh : (step y a).handlers sid = .sending w kvs) (hkv : kv ∈ kvs) :
    Known y l kv := by
  cases ha : a.toStep with
  | none =>
    rw [step, ha] at hh
    exact .sending hh hkv
  | some b =>
    rw [step, ha, Option.elim_some] at hh
    rcases y.step_cases b with ⟨atom, -, hz⟩ | ⟨sid', hm⟩ | ⟨-, -, hz⟩
    · rw [hz] at hh
      exact .sending hh hkv
    · generalize y.step b = z at hm hh
      have hmoved : ∀ {s : Server} {h' : Handler}, z = y.moveTo s sid' h' →
          h' = .sending w kvs ∨ y.handlers sid = .sending w kvs := by
        rintro s h' rfl
        by_cases hsid : sid = sid'
        · subst hsid
          rw [WatchSystem.moveTo_self] at hh
          exact .inl hh
        · rw [WatchSystem.moveTo_of_ne _ _ hsid] at hh
          exact .inr hh
      cases hm with
      | connected hs => exact .sending ((hmoved rfl).resolve_left (by simp)) hkv
      | disconnected hs => exact .sending ((hmoved rfl).resolve_left (by simp)) hkv
      | numbered hs => exact .sending ((hmoved rfl).resolve_left (by simp)) hkv
      | canceled hs hw => exact .sending ((hmoved rfl).resolve_left (by simp)) hkv
      | stamped hs => exact .sending ((hmoved rfl).resolve_left (by simp)) hkv
      | created hs hok => exact .sending ((hmoved rfl).resolve_left (by simp)) hkv
      | failed hs hok => exact .sending ((hmoved rfl).resolve_left (by simp)) hkv
      | inserted hs => exact .sending ((hmoved rfl).resolve_left (by simp)) hkv
      | filled hs => exact .sending ((hmoved rfl).resolve_left (by simp)) hkv
      | refused hs => exact .sending ((hmoved rfl).resolve_left (by simp)) hkv
      | collected hs =>
        rcases hmoved rfl with heq | hsame
        · cases heq
          obtain ⟨-, k, info, hinfo, -, rfl⟩ := WatchSystem.mem_history.mp hkv
          exact .stored hinfo
        · exact .sending hsame hkv
      | sent hs =>
        rcases hmoved rfl with heq | hsame
        · cases heq
          exact .sending hs (List.mem_cons_of_mem _ hkv)
        · exact .sending hsame hkv
    · rw [hz] at hh
      exact .sending hh hkv

/-- **What is known after a step was known before it, or is made by it.** -/
theorem known_step (h : y.Orderly) {a : Action} (hkv : Known (step y a) (l ++ responds y a) kv) :
    Known y l kv ∨ Made y a kv := by
  cases hkv with
  | response hmem =>
    rcases List.mem_append.mp hmem with hmem | hmem
    · exact .inl (.response hmem)
    · exact responds_known h.watched.dated hmem
  | event hevent => exact notified_step h hevent
  | sending hh hmem => exact .inl (sending_step hh hmem)
  | stored hk => exact stored_step h.watched.dated hk

end KnownStep

/-! ### What is known is identified -/

theorem orderly_step {y : WatchSystem} (h : y.Orderly) (a : Action) : (step y a).Orderly := by
  rw [step]
  cases a.toStep with
  | none => exact h
  | some b => exact h.step b

theorem orderly_run (env : Env) (acts : List Action) :
    (Run.final step (WatchSystem.start env) acts).Orderly :=
  Run.invariant step (I := WatchSystem.Orderly) (fun _ a h => orderly_step h a)
    (WatchSystem.orderly_start env) acts

theorem revision_le_step (y : WatchSystem) (a : Action) :
    y.server.kvStore.revision ≤ (step y a).server.kvStore.revision := by
  rw [step]
  cases a.toStep with
  | none => exact le_refl _
  | some b => exact y.revision_le_step b

/-- What a step makes is at a new revision. -/
theorem Made.modRevision {y : WatchSystem} {a : Action} {kv : KeyValue} (h : Made y a kv) :
    kv.modRevision = y.server.kvStore.revision + 1 ∧
      (step y a).server.kvStore.revision = y.server.kvStore.revision + 1 := by
  cases h with
  | @put r =>
    exact ⟨rfl, exec_revision y.server
      (.put r.key r.value r.lease (if r.prevKv then some {} else none))⟩
  | @txn req =>
    exact ⟨rfl, exec_revision y.server (.txn req.compare req.success req.failure)⟩

/-- A step that shows a key alike makes one key-value of it. -/
theorem Made.unique {y : WatchSystem} {a : Action} (hshows : ShowsAlike y a) {kv kv' : KeyValue}
    (h : Made y a kv) (h' : Made y a kv') (hkey : kv.key = kv'.key) : kv = kv' := by
  cases h with
  | put =>
    cases h' with
    | put => rfl
  | @txn req k st h =>
    cases h' with
    | @txn _ k' st' h' =>
      obtain rfl : k = k' := hkey
      rw [hshows k st st' h h']

/-- What is known is identified, and from the past. -/
structure Ledger (y : WatchSystem) (l : List KeyValue) : Prop where
  orderly : y.Orderly
  identified : Identified {kv | Known y l kv}
  past : ∀ kv, Known y l kv → kv.modRevision ≤ y.server.kvStore.revision

theorem ledger_start (env : Env) : Ledger (WatchSystem.start env) [] := by
  have hnone : ∀ kv, ¬ Known (WatchSystem.start env) [] kv := by
    intro kv hkv
    cases hkv with
    | response h => cases h
    | event h =>
      obtain ⟨sid, response, h, -⟩ := h
      cases h
    | sending h hkv => cases h
    | stored h => cases h
  refine ⟨WatchSystem.orderly_start env, ?_, ?_⟩
  · intro kv hkv
    exact absurd hkv (hnone kv)
  · intro kv hkv
    exact absurd hkv (hnone kv)

/-- **A step that shows each key alike keeps what is known identified.** -/
theorem Ledger.step {y : WatchSystem} {l : List KeyValue} (h : Ledger y l) {a : Action}
    (hshows : ShowsAlike y a) : Ledger (step y a) (l ++ responds y a) where
  orderly := orderly_step h.orderly a
  identified := by
    intro kv hkv kv' hkv' hkey hmod
    rcases known_step h.orderly hkv with hold | hmade <;>
      rcases known_step h.orderly hkv' with hold' | hmade'
    · exact h.identified kv hold kv' hold' hkey hmod
    · have hle := h.past kv hold
      have hnew := hmade'.modRevision.1
      omega
    · have hle := h.past kv' hold'
      have hnew := hmade.modRevision.1
      omega
    · rw [hmade.unique hshows hmade' hkey]
      exact ⟨rfl, rfl, rfl, rfl⟩
  past := by
    intro kv hkv
    rcases known_step h.orderly hkv with hold | hmade
    · exact (h.past kv hold).trans (revision_le_step y a)
    · obtain ⟨hmod, hrev⟩ := hmade.modRevision
      rw [hmod, hrev]

/-- What has been handed out is known. -/
theorem handedOut_known (y : WatchSystem) (acts : List Action) : handedOut y acts ⊆
    {kv | Known (Run.final Observed.step y acts) (Run.log Observed.step responds y acts) kv} := by
  rintro kv (h | h)
  · exact .response h
  · exact .event h

/-- In a run whose transactions show each key alike, what is handed out is identified. -/
theorem identified_of_along (env : Env) {acts : List Action}
    (h : Run.Along step ShowsAlike (WatchSystem.start env) acts) :
    Identified (handedOut (WatchSystem.start env) acts) := by
  have hledger := Run.invariant_log_along step (I := Ledger) (fun _ _ _ hl hC => hl.step hC)
    (ledger_start env) h
  exact hledger.identified.mono (handedOut_known _ _)

/-- Where a transaction shows a key, a client can have its key-value by reading the key after the
transaction. -/
theorem shown_handedOut (env : Env) (pre : List Action) (req : TxnRequest) {k : Bytes}
    {a : Standing} :
    let y := Run.final step (WatchSystem.start env) pre
    Shown (y.server.kvStore.revision + 1) y.server.data k a [] (chosen y req) →
    a.kv y.server.data k (y.server.kvStore.revision + 1) ∈
      handedOut (WatchSystem.start env) (pre ++ [.txn req] ++ [.request (.range { key := k })]) := by
  intro y ha
  left
  rw [Set.mem_ofPred_eq, Run.log_concat, Run.log_concat, Run.final_concat]
  have hy := orderly_run env pre
  rcases shown_txnOps hy.watched.dated.midTxn ha with hmem | hleft
  · rw [← responds_txn] at hmem
    exact List.mem_append_left _ (List.mem_append_right _ hmem)
  · rw [← data_step_txn] at hleft
    exact List.mem_append_right _ (mem_responds_range hleft)

end Observed

open Observed in
/-- **A modification revision identifies a write of a key, wherever transactions show each key
alike.** In such a run, whatever has been handed out is identified by its key and modification
revision. And these are exactly the runs of which this is so at every point, whatever key is read
next. -/
theorem identified_iff (env : Env) (acts : List Observed.Action) :
    (Run.Along step ShowsAlike (WatchSystem.start env) acts →
      Identified (handedOut (WatchSystem.start env) acts)) ∧
    (Run.Along step ShowsAlike (WatchSystem.start env) acts ↔
      ∀ pre, pre <+: acts → ∀ key, Identified
        (handedOut (WatchSystem.start env) (pre ++ [.request (.range { key := key })]))) := by
  refine ⟨identified_of_along env, ?_, ?_⟩
  · rintro h pre ⟨post, rfl⟩ key
    have hpre := ((Run.along_append step ShowsAlike _ pre post).mp h).1
    exact identified_of_along env
      ((Run.along_append step ShowsAlike _ pre _).mpr ⟨hpre, trivial, trivial⟩)
  · intro h
    refine Run.along_of_split step fun pre a post hacts => ?_
    cases a with
    | request req => trivial
    | other a internal => trivial
    | txn req =>
      intro k a b ha hb
      have hid := h (pre ++ [.txn req]) ⟨post, by rw [hacts]; simp⟩ k
      obtain ⟨hvalue, hversion, hlease, hcreate⟩ := hid _ (shown_handedOut env pre req ha) _
        (shown_handedOut env pre req hb) rfl rfl
      have hy := (orderly_run env pre).watched.dated
      refine Standing.kv_inj (Int.lt_succ _) (hy.data k) ha.isSome hb.isSome ?_
      rw [KeyValue.mk.injEq]
      exact ⟨rfl, hcreate, rfl, hversion, hvalue, hlease⟩

/-- A transaction puts a key twice and shows it in between; then the key is read. -/
theorem observed_twice : ¬ Identified (Observed.handedOut (WatchSystem.start .plain)
    [.txn { success := [.requestPut { key := [107], value := [97] },
                        .requestPut { key := [107], value := [98], prevKv := true }] },
      .request (.range { key := [107] })]) := by
  intro h
  have hfirst := h
    { key := [107], createRevision := 2, modRevision := 2, version := 1, value := [97] }
    (.inl (by decide))
    { key := [107], createRevision := 2, modRevision := 2, version := 2, value := [98] }
    (.inl (by decide)) rfl rfl
  exact absurd hfirst.1 (by decide)

end EtcdLite
