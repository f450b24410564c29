import EtcdLite.Lib.LeasedMap
import EtcdLite.Lib.Refinement
import EtcdLite.Kv.Books
import EtcdLite.Model.Requests

/-!
# What the server keeps, without its tables

The server as its clients see it (`Etcd`): a map from keys to key-values, each attached to one lease
at most, when each lease expires, and a revision. There are no hash tables, no key sets beside the
map, no copies of a key-value's revisions and no loops: a transaction is its operations, one after
another, and to revoke leases is to remove them with their keys, all at once.

A request has one outcome (`Etcd.next`), and the answers to it are those that say what is there
(`Etcd.Answers`); the key-values that a deletion gives back, and the keys of a lease, may come in
any order. So the machine that this makes (`Etcd.machine`) is determined, up to these orders
(`determined`).
-/

namespace EtcdLite

/-! ### Lists of the elements of a set -/

/-- The list has each element of the set once. -/
def Lists {α : Type*} (S : Set α) (l : List α) : Prop := l.Nodup ∧ ∀ x, x ∈ l ↔ x ∈ S

theorem Lists.perm {α : Type*} {S : Set α} {l l' : List α} (h : Lists S l) (h' : Lists S l') :
    l.Perm l' :=
  (List.perm_ext_iff_of_nodup h.1 h'.1).mpr fun x => (h.2 x).trans (h'.2 x).symm

theorem Lists.of_perm {α : Type*} {S : Set α} {l l' : List α} (h : Lists S l) (hl : l.Perm l') :
    Lists S l' :=
  ⟨hl.nodup h.1, fun x => hl.mem_iff.symm.trans (h.2 x)⟩

/-- In ascending order there is one such list. -/
theorem Lists.eq_of_sorted {α β : Type*} [Preorder β] {f : α → β} {S : Set α} {l l' : List α}
    (h : Lists S l) (h' : Lists S l') (hl : l.Pairwise fun a b => f a < f b)
    (hl' : l'.Pairwise fun a b => f a < f b) : l = l' :=
  (h.perm h').eq_of_pairwise (fun _ _ _ _ hab hba => absurd hba (lt_asymm hab)) hl hl'

/-! ### The data -/

/-- The map, the revision, and the next lease id. Of a lease it is known what its time to live is
and when it expires. -/
structure Etcd where
  map : LeasedMap Bytes KeyValue Int (Int × Int)
  revision : Int
  nextLeaseId : Int

/-- The keys of a range. -/
def span (start : Bytes) : Bytes → Set Bytes
  | [] => {start}
  | b :: bs => if b = 0 then Set.Ici start else Set.Ico start (b :: bs)

/-- What a put stores. -/
def putKv (old : Option KeyValue) (key value : Bytes) (lease revision : Int) : KeyValue :=
  { key := key, value := value, lease := lease,
    createRevision := (old.map KeyValue.createRevision).getD revision,
    modRevision := revision,
    version := (old.map fun kv => kv.version + 1).getD 1 }

/-- A compare holds. None holds of a key that is not there, and every number is compared with the
operand for the version. -/
def holds (cmp : Compare) : Option KeyValue → Bool
  | none => false
  | some kv =>
    match cmp.target with
    | .VALUE => KVStore.compareWith cmp.result kv.value cmp.value
    | .VERSION => KVStore.compareWith cmp.result kv.version cmp.version
    | .CREATE => KVStore.compareWith cmp.result kv.createRevision cmp.version
    | .MOD => KVStore.compareWith cmp.result kv.modRevision cmp.version
    | .LEASE => KVStore.compareWith cmp.result kv.lease cmp.version
    | .other _ => false

/-- How an element of the answer to a query is shown. -/
def shown (countOnly keysOnly : Bool) (kv : KeyValue) : KeyValue :=
  if countOnly then {} else if keysOnly then { key := kv.key } else kv

/-- How many whole seconds are left until a deadline, `-1` if none. -/
def secondsLeft (expireTime now : Int) : Int :=
  let remaining := Int.tdiv (wrap64 (expireTime - now)) 1000000000
  if remaining > 0 then remaining else -1

/-- What a handler answers that does not find the lease. -/
def noLease : Response := .failed ⟨.internal, "Lease not found"⟩

namespace Etcd

/-- Nothing in it. -/
def new : Etcd := { map := .empty _ _ _ _, revision := 1, nextLeaseId := 1 }

/-- The header of a response. -/
def header (e : Etcd) : ResponseHeader :=
  { clusterId := 1, memberId := 1, revision := e.revision, raftTerm := 1 }

/-- The key-values of the range. -/
def within (e : Etcd) (start endKey : Bytes) : Set KeyValue :=
  {kv | ∃ k ∈ span start endKey, e.map.data k = some kv}

/-- The next revision. -/
def bump (e : Etcd) : Etcd := { e with revision := e.revision + 1 }

open Classical in
/-- A write: a put, or the deletion of a range. -/
noncomputable def write (e : Etcd) : Write → Etcd
  | .put key value lease revision =>
    { e with map := e.map.put key (putKv (e.map.data key) key value lease revision) lease }
  | .delete key rangeEnd => { e with map := e.map.remove (span key rangeEnd) }

/-- These leases are removed, with their keys; each key is a revision. -/
noncomputable def revoke (e : Etcd) (S : Set Int) : Etcd :=
  { e with map := e.map.revoke S, revision := e.revision + (e.map.keys S).ncard }

/-- The lease expires at this time. -/
def setLease (e : Etcd) (L ttl now : Int) : Etcd :=
  { e with map := e.map.grant L (ttl, deadline now ttl) }

theorem revoke_of_dead {e : Etcd} {S : Set Int} (h : ∀ L ∈ S, e.map.leases L = none) :
    e.revoke S = e := by
  rw [revoke, e.map.revoke_of_dead h, e.map.keys_of_dead h, Set.ncard_empty, Nat.cast_zero, add_zero]

/-- **Revocations add up.** -/
theorem revoke_revoke (e : Etcd) (S S' : Set Int) : (e.revoke S).revoke S' = e.revoke (S ∪ S') := by
  rw [revoke, revoke, revoke, e.map.revoke_revoke, e.map.ncard_keys_union, Nat.cast_add, add_assoc]

/-! ### Transactions -/

/-- The guard of a transaction. -/
def Guard (e : Etcd) (r : TxnRequest) : Prop := ∀ cmp ∈ r.compare, holds cmp (e.map.data cmp.key)

instance (e : Etcd) (r : TxnRequest) : Decidable (e.Guard r) :=
  inferInstanceAs (Decidable (∀ cmp ∈ r.compare, holds cmp (e.map.data cmp.key)))

/-- The operations that are executed. -/
def chosen (e : Etcd) (r : TxnRequest) : List RequestOp :=
  if e.Guard r then r.success else r.failure

/-- An operation of a transaction: a nested transaction is passed over. -/
noncomputable def apply (revision : Int) (e : Etcd) : RequestOp → Etcd
  | .requestPut r => e.write (.put r.key r.value r.lease revision)
  | .requestDeleteRange r => e.write (.delete r.key r.rangeEnd)
  | .requestRange _ | .requestTxn _ _ _ | .notSet => e

/-! ### Requests -/

/-- What a request leads to. -/
noncomputable def next (e : Etcd) : Request → Etcd
  | .put r => e.bump.write (.put r.key r.value r.lease (e.revision + 1))
  | .deleteRange r => e.bump.write (.delete r.key r.rangeEnd)
  | .txn r => (e.chosen r).foldl (apply (e.revision + 1)) e.bump
  | .leaseGrant now r =>
    { e.setLease e.nextLeaseId r.ttl now with nextLeaseId := e.nextLeaseId + 1 }
  | .leaseKeepAlive now r =>
    match e.map.leases r.id with
    | none => e
    | some (ttl, _) => e.setLease r.id ttl now
  | .leaseRevoke r => e.revoke {r.id}
  | .checkExpiration now => e.revoke {L | ∃ ttl expireTime, e.map.leases L = some (ttl, expireTime) ∧
      expireTime ≤ now}
  | .range _ | .compact _ | .leaseTimeToLive _ _ | .status | .watch _ _ => e

/-- The answer to a query: the key-values of the range in ascending order of their keys, as many as
asked for. -/
def Ranges (e : Etcd) (r : RangeRequest) (kvs : List KeyValue) : Prop :=
  ∃ all, Lists (e.within r.key r.rangeEnd) all ∧ all.Pairwise (fun a b => a.key < b.key) ∧
    kvs = (if 0 < r.limit then all.take r.limit.toNat else all).map (shown r.countOnly r.keysOnly)

/-- The answer to a put that asks for the previous key-value; it is empty if there was none. -/
def prev (e : Etcd) (r : PutRequest) : Option KeyValue :=
  if r.prevKv then some ((e.map.data r.key).getD {}) else none

/-- The answer to an operation of a transaction. -/
def AnswersOp (e : Etcd) (op : RequestOp) (resp : ResponseOp) : Prop :=
  match op with
  | .requestPut r => resp = .responsePut { prevKv := e.prev r }
  | .requestDeleteRange r => ∃ kvs, Lists (e.within r.key r.rangeEnd) kvs ∧
      resp = .responseDeleteRange { deleted := kvs.length, prevKvs := if r.prevKv then kvs else [] }
  | .requestRange r => ∃ kvs, e.Ranges r kvs ∧ resp = .responseRange { kvs := kvs, count := kvs.length }
  | .requestTxn _ _ _ | .notSet => resp = .notSet

/-- The answers to the operations of a transaction, one after another. -/
def AnswersOps (revision : Int) : Etcd → List RequestOp → List ResponseOp → Prop
  | _, [], resps => resps = []
  | e, op :: ops, resps => ∃ resp resps', resps = resp :: resps' ∧ e.AnswersOp op resp ∧
      AnswersOps revision (e.apply revision op) ops resps'

/-- The answer to a request. -/
def Answers (e : Etcd) (req : Request) (resp : Response) : Prop :=
  match req with
  | .put r => resp = .put { header := some e.bump.header, prevKv := e.prev r }
  | .range r => ∃ kvs, e.Ranges r kvs ∧
      resp = .range { header := some e.header, kvs := kvs, count := kvs.length }
  | .deleteRange r => ∃ kvs, Lists (e.within r.key r.rangeEnd) kvs ∧
      resp = .deleteRange { header := some e.bump.header, deleted := kvs.length,
                            prevKvs := if r.prevKv then kvs else [] }
  | .txn r => ∃ resps, AnswersOps (e.revision + 1) e.bump (e.chosen r) resps ∧
      resp = .txn { header := some e.bump.header, succeeded := e.Guard r, responses := resps }
  | .compact _ => resp = .compact { header := some e.header }
  | .leaseGrant _ r =>
    resp = .leaseGrant { header := some e.header, id := e.nextLeaseId, ttl := r.ttl }
  | .leaseKeepAlive _ r =>
    resp = match e.map.leases r.id with
      | none => noLease
      | some (ttl, _) => .leaseKeepAlive { header := some e.header, id := r.id, ttl := ttl }
  | .leaseRevoke r =>
    resp = match e.map.leases r.id with
      | none => noLease
      | some _ => .leaseRevoke { header := some (e.revoke {r.id}).header }
  | .leaseTimeToLive now r =>
    match e.map.leases r.id with
    | none => resp = noLease
    | some (_, expireTime) => ∃ keys, Lists (e.map.keys {r.id}) keys ∧
        resp = .leaseTimeToLive { header := some e.header, id := r.id, ttl := secondsLeft expireTime now,
                                  keys := if r.keys then keys else [] }
  | .status => resp = .status { header := some e.header, version := "3.5.0", dbSize := 0, leader := 1,
                                raftIndex := e.revision, raftTerm := 1, raftAppliedIndex := 0,
                                dbSizeInUse := 0, isLearner := false }
  | .watch _ _ | .checkExpiration _ => resp = .none

/-- The machine. -/
def machine : Refinement.Machine Etcd Request Response :=
  fun e req resp e' => e.Answers req resp ∧ e' = e.next req

end Etcd

/-! ### Answers that differ in order only -/

/-- They differ in the order of the key-values that were deleted at most. -/
def DeleteRangeResponse.Agree (r r' : DeleteRangeResponse) : Prop :=
  r'.header = r.header ∧ r'.deleted = r.deleted ∧ r.prevKvs.Perm r'.prevKvs

/-- So do the answers to deletions in a transaction. -/
def ResponseOp.Agree : ResponseOp → ResponseOp → Prop
  | .responseDeleteRange r, .responseDeleteRange r' => r.Agree r'
  | resp, resp' => resp' = resp

/-- They differ in the order of the key-values that were deleted, or of the keys of a lease, at
most. -/
def Response.Agree : Response → Response → Prop
  | .deleteRange r, .deleteRange r' => r.Agree r'
  | .txn r, .txn r' => r'.header = r.header ∧ r'.succeeded = r.succeeded ∧
      List.Forall₂ ResponseOp.Agree r.responses r'.responses
  | .leaseTimeToLive r, .leaseTimeToLive r' =>
    r'.header = r.header ∧ r'.id = r.id ∧ r'.ttl = r.ttl ∧ r.keys.Perm r'.keys
  | resp, resp' => resp' = resp

theorem ResponseOp.agree_refl (resp : ResponseOp) : resp.Agree resp := by
  cases resp with
  | responseDeleteRange r => exact ⟨rfl, rfl, .refl _⟩
  | _ => rfl

theorem Response.agree_refl (resp : Response) : resp.Agree resp := by
  cases resp with
  | deleteRange r => exact ⟨rfl, rfl, .refl _⟩
  | txn r => exact ⟨rfl, rfl, List.forall₂_same.mpr fun resp _ => resp.agree_refl⟩
  | leaseTimeToLive r => exact ⟨rfl, rfl, rfl, .refl _⟩
  | _ => rfl

/-- Lists of one set, given back if asked for. -/
theorem Lists.agree {α : Type*} {S : Set α} {l l' : List α} (h : Lists S l) (h' : Lists S l')
    (b : Bool) : (if b then l else []).Perm (if b then l' else []) := by
  cases b with
  | true => exact h.perm h'
  | false => exact .refl _

namespace Etcd

variable {e : Etcd}

/-- A query has one answer. -/
theorem Ranges.eq {r : RangeRequest} {kvs kvs' : List KeyValue} (h : e.Ranges r kvs)
    (h' : e.Ranges r kvs') : kvs' = kvs := by
  obtain ⟨all, hall, hsorted, rfl⟩ := h
  obtain ⟨all', hall', hsorted', rfl⟩ := h'
  rw [hall.eq_of_sorted hall' hsorted hsorted']

theorem AnswersOp.agree {op : RequestOp} {resp resp' : ResponseOp} (h : e.AnswersOp op resp)
    (h' : e.AnswersOp op resp') : resp.Agree resp' := by
  cases op with
  | requestDeleteRange r =>
    obtain ⟨kvs, hkvs, rfl⟩ := h
    obtain ⟨kvs', hkvs', rfl⟩ := h'
    exact ⟨rfl, congrArg Nat.cast (hkvs.perm hkvs').length_eq.symm, hkvs.agree hkvs' _⟩
  | requestRange r =>
    obtain ⟨kvs, hkvs, rfl⟩ := h
    obtain ⟨kvs', hkvs', rfl⟩ := h'
    rw [hkvs.eq hkvs']
    rfl
  | _ =>
    rw [AnswersOp] at h h'
    rw [h, h']
    exact ResponseOp.agree_refl _

theorem AnswersOps.agree {revision : Int} {ops : List RequestOp} {resps resps' : List ResponseOp}
    (h : AnswersOps revision e ops resps) (h' : AnswersOps revision e ops resps') :
    List.Forall₂ ResponseOp.Agree resps resps' := by
  induction ops generalizing e resps resps' with
  | nil =>
    rw [AnswersOps] at h h'
    rw [h, h']
    exact .nil
  | cons op ops ih =>
    obtain ⟨resp, rest, rfl, hresp, hrest⟩ := h
    obtain ⟨resp', rest', rfl, hresp', hrest'⟩ := h'
    exact .cons (hresp.agree hresp') (ih hrest hrest')

theorem Answers.agree {req : Request} {resp resp' : Response} (h : e.Answers req resp)
    (h' : e.Answers req resp') : resp.Agree resp' := by
  cases req with
  | range r =>
    obtain ⟨kvs, hkvs, rfl⟩ := h
    obtain ⟨kvs', hkvs', rfl⟩ := h'
    rw [hkvs.eq hkvs']
    rfl
  | deleteRange r =>
    obtain ⟨kvs, hkvs, rfl⟩ := h
    obtain ⟨kvs', hkvs', rfl⟩ := h'
    exact ⟨rfl, congrArg Nat.cast (hkvs.perm hkvs').length_eq.symm, hkvs.agree hkvs' _⟩
  | txn r =>
    obtain ⟨resps, hresps, rfl⟩ := h
    obtain ⟨resps', hresps', rfl⟩ := h'
    exact ⟨rfl, rfl, hresps.agree hresps'⟩
  | leaseTimeToLive now r =>
    rw [Answers] at h h'
    cases hL : e.map.leases r.id with
    | none =>
      simp only [hL] at h h'
      rw [h, h']
      exact Response.agree_refl _
    | some lease =>
      simp only [hL] at h h'
      obtain ⟨keys, hkeys, rfl⟩ := h
      obtain ⟨keys', hkeys', rfl⟩ := h'
      exact ⟨rfl, rfl, rfl, hkeys.agree hkeys' _⟩
  | _ =>
    rw [Answers] at h h'
    rw [h, h']
    exact Response.agree_refl _

/-- **The machine is determined.** -/
theorem determined : Refinement.Determined machine Response.Agree := by
  rintro e req resp resp' e' e'' ⟨h, rfl⟩ ⟨h', rfl⟩
  exact ⟨h.agree h', rfl⟩

end Etcd

end EtcdLite
