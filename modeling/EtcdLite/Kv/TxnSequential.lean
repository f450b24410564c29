import EtcdLite.Kv.Books

/-!
# A transaction is its operations in sequence

`Txn` has its own copy of the code of `Put` and `Delete`, and calls the range query
under the lock. `txn_sequential` says that the copies agree: a transaction of puts,
range deletions and range queries leaves the data and the leases, and gives the
responses, that its operations do when they go through the handlers of `KVService` one
after another, each with the revision counter set so that it runs at the transaction's
revision. The servers on the two sides differ in what has been sent to watchers only.
-/

namespace EtcdLite

open Server

/-- An operation of a transaction that is not a transaction. -/
inductive PlainOp where
  | range (r : RangeRequest)
  | put (r : PutRequest)
  | deleteRange (r : DeleteRangeRequest)

/-- The operation as a transaction has it. -/
def PlainOp.toRequestOp : PlainOp → RequestOp
  | .range r => .requestRange r
  | .put r => .requestPut r
  | .deleteRange r => .requestDeleteRange r

/-- A response without its header. -/
def ResponseOp.dropHeader : ResponseOp → ResponseOp
  | .responseRange r => .responseRange { r with header := none }
  | .responsePut r => .responsePut { r with header := none }
  | .responseDeleteRange r => .responseDeleteRange { r with header := none }
  | .responseTxn _ succeeded responses => .responseTxn none succeeded responses
  | .notSet => .notSet

/-- The operation through its handler, with the counter set so that it runs at `revision`. -/
def PlainOp.runAt (revision : Int) (s : Server) : PlainOp → ResponseOp × Server
  | .range r =>
    let s := s.setRevision revision
    (.responseRange (KVService.range s r), s)
  | .put r =>
    let (resp, s) := KVService.put (s.setRevision (revision - 1)) r
    (.responsePut resp, s)
  | .deleteRange r =>
    let (resp, s) := KVService.deleteRange (s.setRevision (revision - 1)) r
    (.responseDeleteRange resp, s)

/-- The operations one after another. -/
def runAllAt (revision : Int) (s : Server) : List PlainOp → List ResponseOp × Server
  | [] => ([], s)
  | op :: ops =>
    let (resp, s) := op.runAt revision s
    let (resps, s) := runAllAt revision s ops
    (resp :: resps, s)

/-- Two servers with the same data, the same leases, and the same wiring between them. -/
structure SameData (s t : Server) : Prop where
  data : t.kvStore.data = s.kvStore.data
  leaseManager : t.leaseManager = s.leaseManager
  wired : t.kvStore.leaseManager = s.kvStore.leaseManager

theorem SameData.refl (s : Server) : SameData s s := ⟨rfl, rfl, rfl⟩

/-- The same put to the same data. -/
theorem SameData.put {s t s' t' : Server} {key value : Bytes} {lease revision : Int}
    (h : SameData s t) (hs : PutDone s s' key value lease revision)
    (ht : PutDone t t' key value lease revision)
    (hws : SameWiring s s') (hwt : SameWiring t t') : SameData s' t' where
  data := by
    rw [hs.data, ht.data, Server.data, Server.data, h.data]
  leaseManager := by
    rw [hs.leaseManager, ht.leaseManager, Server.data, Server.data, h.data, h.leaseManager, h.wired]
  wired := by
    rw [hws.leaseManager, hwt.leaseManager, h.wired]

/-- The same deletion from the same data. -/
theorem SameData.delete {s t s' t' : Server} {key rangeEnd : Bytes} (h : SameData s t)
    (hs : DeleteDone s s' key rangeEnd) (ht : DeleteDone t t' key rangeEnd)
    (hws : SameWiring s s') (hwt : SameWiring t t') : SameData s' t' := by
  have hmatched : t.matched key rangeEnd = s.matched key rangeEnd := by
    unfold matched
    rw [h.data]
  have herase : t.eraseMatched key rangeEnd = s.eraseMatched key rangeEnd := by
    unfold eraseMatched
    rw [hmatched, h.data, h.leaseManager, h.wired]
  exact ⟨by rw [hs.data, ht.data, herase], by rw [hs.leaseManager, ht.leaseManager, herase],
    by rw [hws.leaseManager, hwt.leaseManager, h.wired]⟩

section Step

variable {s t : Server} (h : SameData s t) (revision : Int)
include h

/-- The put branch of `Txn` against `KVService.put`. -/
theorem txnPut_agrees (r : PutRequest) :
    let a := s.txnOp revision (.requestPut r)
    let b := (PlainOp.put r).runAt revision t
    a.1.dropHeader = b.1.dropHeader ∧ SameData a.2 b.2 := by
  intro a b
  have ht := put_done (t.setRevision (revision - 1)) r.key r.value r.lease
    (if r.prevKv then some {} else none)
  have hw := put_wiring (t.setRevision (revision - 1)) r.key r.value r.lease
    (if r.prevKv then some {} else none)
  have hrev : (t.setRevision (revision - 1)).kvStore.revision + 1 = revision :=
    Int.sub_add_cancel revision 1
  rw [hrev] at ht
  have hset : SameData s (t.setRevision (revision - 1)) := ⟨h.data, h.leaseManager, h.wired⟩
  refine ⟨?_, hset.put (txnPut_done s revision r) ht (txnOp_wiring s revision (.requestPut r)) hw⟩
  have hold : (t.setRevision (revision - 1)).kvStore.data = s.kvStore.data := h.data
  simp only [a, b, txnOp, txnPut, PlainOp.runAt, KVService.put, ResponseOp.dropHeader, put_fst, hold]
  cases r.prevKv <;> rfl

/-- The delete branch of `Txn` against `KVService.deleteRange`. -/
theorem txnDeleteRange_agrees (r : DeleteRangeRequest) :
    let a := s.txnOp revision (.requestDeleteRange r)
    let b := (PlainOp.deleteRange r).runAt revision t
    a.1.dropHeader = b.1.dropHeader ∧ SameData a.2 b.2 := by
  intro a b
  have hset : SameData s (t.setRevision (revision - 1)) := ⟨h.data, h.leaseManager, h.wired⟩
  refine ⟨?_, hset.delete (txnDeleteRange_done s r)
    (delete_done (t.setRevision (revision - 1)) r.key r.rangeEnd true)
    (txnOp_wiring s revision (.requestDeleteRange r)) (delete_wiring _ _ _ _)⟩
  have hmatched : (t.setRevision (revision - 1)).matched r.key r.rangeEnd =
      s.kvStore.data.toList.filter fun e => keyInRange e.1 r.key r.rangeEnd := by
    rw [matched, hset.data]
  simp only [a, b, txnOp, txnDeleteRange, PlainOp.runAt, KVService.deleteRange,
    ResponseOp.dropHeader, delete_fst, hmatched, if_true, Option.getD_some, List.length_map]
  cases r.prevKv <;> rfl

/-- The range branch of `Txn` against `KVService.range`. -/
theorem txnRange_agrees (r : RangeRequest) :
    let a := s.txnOp revision (.requestRange r)
    let b := (PlainOp.range r).runAt revision t
    a.1.dropHeader = b.1.dropHeader ∧ SameData a.2 b.2 := by
  intro a b
  refine ⟨?_, h.data, h.leaseManager, h.wired⟩
  have hrange : (t.setRevision revision).kvStore.range r.key r.rangeEnd r.limit r.countOnly
      r.keysOnly = s.kvStore.rangeInternal r.key r.rangeEnd r.limit r.countOnly r.keysOnly := by
    unfold KVStore.range KVStore.rangeInternal setRevision
    dsimp only
    rw [h.data]
  simp only [a, b, txnOp, txnRange, PlainOp.runAt, KVService.range, ResponseOp.dropHeader, hrange]

theorem txnOp_agrees (op : PlainOp) :
    let a := s.txnOp revision op.toRequestOp
    let b := op.runAt revision t
    a.1.dropHeader = b.1.dropHeader ∧ SameData a.2 b.2 := by
  cases op with
  | range r => exact txnRange_agrees h revision r
  | put r => exact txnPut_agrees h revision r
  | deleteRange r => exact txnDeleteRange_agrees h revision r

/-- The loop of `Txn` against the handlers in sequence. -/
theorem txnOps_agrees (ops : List PlainOp) :
    let a := s.txnOps revision (ops.map PlainOp.toRequestOp)
    let b := runAllAt revision t ops
    a.1.map ResponseOp.dropHeader = b.1.map ResponseOp.dropHeader ∧
      a.1.length = ops.length ∧ SameData a.2 b.2 := by
  induction ops generalizing s t with
  | nil => exact ⟨rfl, rfl, h⟩
  | cons op ops ih =>
    have hstep := txnOp_agrees h revision op
    obtain ⟨hresp, hlen, hdata⟩ := ih hstep.2
    refine ⟨?_, congrArg (· + 1) hlen, hdata⟩
    exact congrArg₂ List.cons hstep.1 hresp

end Step

/-- **A transaction is the sequential composition of the plain operations at one revision.** -/
theorem txn_sequential (s : Server) (compares : List Compare) (success failure : List PlainOp) :
    let R := s.kvStore.revision
    let r := s.txn compares (success.map PlainOp.toRequestOp) (failure.map PlainOp.toRequestOp)
    let chosen :=
      if ∀ cmp ∈ compares, KVStore.evaluateCompare cmp (s.kvStore.data.find? cmp.key) = true then
        success
      else failure
    let q := runAllAt (R + 1) s chosen
    (r.1.succeeded = true ↔
      ∀ cmp ∈ compares, KVStore.evaluateCompare cmp (s.kvStore.data.find? cmp.key) = true) ∧
    r.2.kvStore.data = q.2.kvStore.data ∧
    r.2.leaseManager.leases = q.2.leaseManager.leases ∧
    r.1.responses.map ResponseOp.dropHeader = q.1.map ResponseOp.dropHeader ∧
    r.1.responses.length = chosen.length ∧
    r.1.header.map ResponseHeader.revision = some (R + 1) ∧
    r.2.kvStore.revision = R + 1 := by
  intro R r chosen q
  have hchosen : (s.setRevision (R + 1)).chosenOps compares (success.map PlainOp.toRequestOp)
      (failure.map PlainOp.toRequestOp) = chosen.map PlainOp.toRequestOp := by
    simp only [chosenOps, KVStore.evaluateCompares_iff, chosen, apply_ite (List.map _)]
    rfl
  have hset : SameData (s.setRevision (R + 1)) s := ⟨rfl, rfl, rfl⟩
  obtain ⟨hresp, hlen, hdata⟩ := txnOps_agrees hset (R + 1) chosen
  rw [← hchosen] at hresp hlen hdata
  refine ⟨?_, hdata.data.symm, (congrArg LeaseManager.leases hdata.leaseManager).symm, hresp, hlen,
    rfl, txnOps_revision (s.setRevision (R + 1)) _ _⟩
  exact KVStore.evaluateCompares_iff

end EtcdLite
