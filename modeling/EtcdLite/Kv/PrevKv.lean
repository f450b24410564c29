import EtcdLite.Kv.Books

/-!
# Previous values in put responses

The response to a put with `prev_kv` has a field for the key-value that the put has replaced. Both
`Put` of the service and the put branch of `Txn` set that field whenever it was asked for, from a local
that is empty when there was no key: so the field tells whether the key existed exactly when it did, or
the field was not asked for (`prev_kv_iff`).
-/

namespace EtcdLite

open Server

/-- The response to a put has the key-value that was stored under the key, when it was asked for and
there was one, and otherwise none. -/
def TellsPrev (s : Server) (request : PutRequest) (response : PutResponse) : Prop :=
  response.prevKv =
    if request.prevKv then (s.kvStore.data.find? request.key).map KeyInfo.kv else none

/-- A response that has the field whenever it was asked for. -/
theorem tellsPrev_iff (s : Server) (request : PutRequest) (header : Option ResponseHeader) :
    TellsPrev s request
      { header := header
        prevKv := if request.prevKv then
          some (((s.kvStore.data.find? request.key).map KeyInfo.kv).getD {}) else none } ↔
      (request.prevKv = true → (s.kvStore.data.find? request.key).isSome) := by
  unfold TellsPrev
  cases request.prevKv with
  | false => simp
  | true => cases s.kvStore.data.find? request.key <;> simp

theorem put_response (s : Server) (request : PutRequest) : (KVService.put s request).1 =
    { header := some (KVService.responseHeader (KVService.put s request).2)
      prevKv := if request.prevKv then
        some (((s.kvStore.data.find? request.key).map KeyInfo.kv).getD {}) else none } := by
  simp only [KVService.put, put_fst]
  cases request.prevKv <;> rfl

/-- The response to an operation of a transaction is given at its turn. -/
theorem txnOps_response (s : Server) (revision : Int) (ops rest : List RequestOp) (op : RequestOp) :
    (s.txnOps revision (ops ++ op :: rest)).1[ops.length]? =
      some ((s.txnOps revision ops).2.txnOp revision op).1 := by
  induction ops generalizing s with
  | nil => rfl
  | cons op' ops ih =>
    have hcons : (s.txnOps revision (op' :: ops ++ op :: rest)).1 =
        (s.txnOp revision op').1 ::
          ((s.txnOp revision op').2.txnOps revision (ops ++ op :: rest)).1 := rfl
    rw [hcons, List.length_cons, List.getElem?_cons_succ]
    exact ih (s.txnOp revision op').2

/-- **Previous values in put responses tell existence, exactly where they do not invent one.** On
every server: the response to a put through the service, and the response to each put of a
transaction, has the key-value that was stored just before the put if there was one and it was asked
for, and otherwise none, exactly when there was one or it was not asked for. -/
theorem prev_kv_iff (s : Server) :
    (∀ request, TellsPrev s request (KVService.put s request).1 ↔
      (request.prevKv = true → (s.kvStore.data.find? request.key).isSome)) ∧
    ∀ (request : TxnRequest) (ops rest : List RequestOp) (r : PutRequest),
      s.chosenOps request.compare request.success request.failure = ops ++ .requestPut r :: rest →
      let R := s.kvStore.revision + 1
      let t := ((s.setRevision R).txnOps R ops).2
      ∃ response,
        (KVService.txn s request).1.responses[ops.length]? = some (.responsePut response) ∧
        (TellsPrev t r response ↔ (r.prevKv = true → (t.kvStore.data.find? r.key).isSome)) := by
  refine ⟨fun request => ?_, fun request ops rest r hops => ?_⟩
  · rw [put_response]
    exact tellsPrev_iff s request _
  · intro R t
    refine ⟨(t.txnPut R r).1, ?_, tellsPrev_iff t r none⟩
    have hresps : (KVService.txn s request).1.responses =
        ((s.setRevision R).txnOps R (s.chosenOps request.compare request.success
          request.failure)).1 := txn_responses ..
    rw [hresps, hops]
    exact txnOps_response (s.setRevision R) R ops rest (.requestPut r)

/-- The first put of a key, with `prev_kv`: the response has an empty key-value. -/
theorem prev_kv_invented :
    let request : PutRequest := { key := [107], value := [118], prevKv := true }
    ¬ TellsPrev (Server.new .plain) request (KVService.put (Server.new .plain) request).1 := by
  intro request htells
  cases htells

end EtcdLite
