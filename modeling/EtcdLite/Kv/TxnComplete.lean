import EtcdLite.Kv.Books

/-!
# Whether a transaction is carried out

What it is for a transaction to have carried out its operations, nested transactions and all, and
answered each with a response of its own kind (`Executes`); it says nothing about the code. The loop of
`Txn` has a branch for each kind of operation but one: a nested transaction goes through it without a word,
and the transaction is reported to have succeeded. So a transaction is carried out exactly when none
is nested in the branch it takes (`txn_complete_iff`).
-/

namespace EtcdLite

open Server

/-- The operation is a nested transaction. -/
def RequestOp.IsTxn : RequestOp → Prop
  | .requestTxn _ _ _ => True
  | _ => False

/-- **Carrying out** a list of operations, at a revision: from `s` it leads to `t`, and to these
responses. A range operation is answered from the store at its turn; a put and a deletion are done; a
nested transaction has the branch its guard chooses carried out, to any depth. -/
inductive Executes (revision : Int) : Server → List RequestOp → List ResponseOp → Server → Prop where
  | nil (s : Server) : Executes revision s [] [] s
  | range {s t : Server} {ops : List RequestOp} {resps : List ResponseOp} {r : RangeRequest}
    {resp : RangeResponse} (h : resp.kvs = s.kvStore.range r.key r.rangeEnd r.limit r.countOnly r.keysOnly)
    (hrest : Executes revision s ops resps t) :
    Executes revision s (.requestRange r :: ops) (.responseRange resp :: resps) t
  | put {s u t : Server} {ops : List RequestOp} {resps : List ResponseOp} {r : PutRequest}
    {resp : PutResponse} (h : PutDone s u r.key r.value r.lease revision)
    (hrest : Executes revision u ops resps t) :
    Executes revision s (.requestPut r :: ops) (.responsePut resp :: resps) t
  | deleteRange {s u t : Server} {ops : List RequestOp} {resps : List ResponseOp}
    {r : DeleteRangeRequest} {resp : DeleteRangeResponse} (h : DeleteDone s u r.key r.rangeEnd)
    (hrest : Executes revision u ops resps t) :
    Executes revision s (.requestDeleteRange r :: ops) (.responseDeleteRange resp :: resps) t
  | txn {s u t : Server} {ops success failure : List RequestOp} {resps resps' : List ResponseOp}
    {compares : List Compare} {header : Option ResponseHeader} {succeeded : Bool}
    (hguard : succeeded = s.kvStore.evaluateCompares compares)
    (h : Executes revision s (s.chosenOps compares success failure) resps' u)
    (hrest : Executes revision u ops resps t) :
    Executes revision s (.requestTxn compares success failure :: ops)
      (.responseTxn header succeeded resps' :: resps) t
  | notSet {s t : Server} {ops : List RequestOp} {resps : List ResponseOp}
    (hrest : Executes revision s ops resps t) :
    Executes revision s (.notSet :: ops) (.notSet :: resps) t

/-- `KVServiceImpl::Txn` with the status it returns: that of `KVStore::Txn`, which is `OK`. -/
def KVService.txnWithStatus (s : Server) (request : TxnRequest) : Status × TxnResponse × Server :=
  (.OK, KVService.txn s request)

/-- A transaction either fails and leaves the store, the leases and the revision as they were, or has
carried out the branch it takes. -/
def Complete (s : Server) (request : TxnRequest) : Prop :=
  let r := KVService.txnWithStatus s request
  (r.1.isError = true ∧ r.2.2.kvStore.data = s.kvStore.data ∧
      r.2.2.leaseManager = s.leaseManager ∧ r.2.2.kvStore.revision = s.kvStore.revision) ∨
    Executes (s.kvStore.revision + 1) (s.setRevision (s.kvStore.revision + 1))
      (s.chosenOps request.compare request.success request.failure) r.2.1.responses r.2.2

/-- The loop of `Txn` carries out operations none of which is a transaction. -/
theorem executes_txnOps (s : Server) (revision : Int) {ops : List RequestOp}
    (h : ∀ op ∈ ops, ¬ op.IsTxn) :
    Executes revision s ops (s.txnOps revision ops).1 (s.txnOps revision ops).2 := by
  induction ops generalizing s with
  | nil => exact .nil s
  | cons op ops ih =>
    obtain ⟨hop, hops⟩ := List.forall_mem_cons.mp h
    have hrest := ih (s.txnOp revision op).2 hops
    cases op with
    | requestRange r => exact .range rfl hrest
    | requestPut r => exact .put (txnPut_done s revision r) hrest
    | requestDeleteRange r => exact .deleteRange (txnDeleteRange_done s r) hrest
    | requestTxn compares success failure => exact absurd trivial hop
    | notSet => exact .notSet hrest

/-- Where the responses are those of the loop of `Txn`, no operation that has been carried out is a
transaction: the loop has left its response unset. -/
theorem Executes.not_isTxn {revision : Int} {s t : Server} {ops : List RequestOp}
    {resps : List ResponseOp} (h : Executes revision s ops resps t) {s' : Server}
    (hresps : resps = (s'.txnOps revision ops).1) : ∀ op ∈ ops, ¬ op.IsTxn := by
  induction h generalizing s' with
  | nil s => simp
  | txn hguard h hrest ih ihrest => cases hresps
  | range h hrest ih =>
    exact List.forall_mem_cons.mpr ⟨id, ih (List.cons.inj hresps).2⟩
  | put h hrest ih =>
    exact List.forall_mem_cons.mpr ⟨id, ih (List.cons.inj hresps).2⟩
  | deleteRange h hrest ih =>
    exact List.forall_mem_cons.mpr ⟨id, ih (List.cons.inj hresps).2⟩
  | notSet hrest ih =>
    exact List.forall_mem_cons.mpr ⟨id, ih (List.cons.inj hresps).2⟩

/-- **A transaction is carried out exactly when none is nested in the branch it takes.** For every
server and every transaction: it returns no error, and every operation of its branch has been carried
out and answered with a response of its kind exactly when no operation of the branch is a
transaction. -/
theorem txn_complete_iff (s : Server) (request : TxnRequest) : Complete s request ↔
    ∀ op ∈ s.chosenOps request.compare request.success request.failure, ¬ op.IsTxn := by
  have hresps : (KVService.txn s request).1.responses =
      ((s.setRevision (s.kvStore.revision + 1)).txnOps (s.kvStore.revision + 1)
        (s.chosenOps request.compare request.success request.failure)).1 := txn_responses ..
  constructor
  · rintro (⟨herror, -⟩ | hdone)
    · cases herror
    · exact hdone.not_isTxn hresps
  · intro h
    refine .inr ?_
    have hstate : (KVService.txn s request).2 = _ := txn_snd ..
    show Executes _ _ _ (KVService.txn s request).1.responses (KVService.txn s request).2
    rw [hresps, hstate]
    exact executes_txnOps _ _ h

/-- A transaction that puts a key in a nested one: it succeeds, and the key is not put. -/
theorem nested_dropped :
    let request : TxnRequest :=
      { success := [.requestTxn [] [.requestPut { key := [107], value := [118] }] []] }
    ¬ Complete (Server.new .plain) request := by
  rintro request (⟨herror, -⟩ | hdone)
  · cases herror
  · have hone : Executes 2 ((Server.new .plain).setRevision 2) request.success [.notSet]
        (KVService.txn (Server.new .plain) request).2 := hdone
    cases hone

end EtcdLite
