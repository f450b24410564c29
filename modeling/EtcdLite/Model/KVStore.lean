import EtcdLite.Lib.UnorderedMap
import EtcdLite.Model.Proto
import Mathlib.Data.List.Sort

/-!
# The key-value store

The data of `KVStore` and its functions that touch nothing else: the range
predicate, the range query, lookups and the evaluation of a transaction's guard
(`kv_store.cpp`). `Put`, `Delete` and `Txn` also reach the lease manager and the
watch callbacks, and are in `EtcdLite.Model.Server`.

`mutex_` makes each public function one atomic step; `revision_` is an integer
that does not wrap.
-/

namespace EtcdLite

/-- `KVStore::KeyInfo`. -/
structure KeyInfo where
  kv : KeyValue
  createRevision : Int
  modRevision : Int
  version : Int
  deriving DecidableEq, Repr

/-- `KVStore`. The pointer and the callbacks are set or not; what they lead to is the
rest of the server. -/
structure KVStore where
  /-- `data_`. -/
  data : UnorderedMap Bytes KeyInfo
  /-- `revision_`. -/
  revision : Int
  /-- `clusterId_`. -/
  clusterId : ℕ
  /-- `memberId_`. -/
  memberId : ℕ
  /-- `leaseManager_` is not null. -/
  leaseManager : Bool
  /-- `putCallback_` is set. -/
  putCallback : Bool
  /-- `deleteCallback_` is set. -/
  deleteCallback : Bool

namespace KVStore

/-- A new store, whose table will have the given layout. -/
def new (l : Layout Bytes KeyInfo) : KVStore :=
  { data := .empty l, revision := 1, clusterId := 1, memberId := 1,
    leaseManager := false, putCallback := false, deleteCallback := false }

/-- `SetLeaseManager`, with a pointer that is not null. -/
def setLeaseManager (s : KVStore) : KVStore := { s with leaseManager := true }

/-- `SetWatchCallback`. -/
def setWatchCallback (s : KVStore) : KVStore :=
  { s with putCallback := true, deleteCallback := true }

end KVStore

/-- `KVStore::KeyInRange`. -/
def keyInRange (key start endKey : Bytes) : Bool :=
  if key < start then false
  else
    match endKey with
    | [] => key = start
    | b :: _ => if b = 0 then key ≥ start else key < endKey

/-- A single key is its own range. -/
@[simp] theorem keyInRange_nil {key start : Bytes} : keyInRange key start [] = true ↔ key = start := by
  unfold keyInRange
  split_ifs with h
  · simp [h.ne]
  · simp

namespace KVStore

/-- `CurrentRevision`. -/
def currentRevision (s : KVStore) : Int := s.revision

/-- `Get`. -/
def get (s : KVStore) (key : Bytes) : Except Status KeyValue :=
  match s.data.find? key with
  | none => .error ⟨.notFound, "Key not found"⟩
  | some info => .ok info.kv

/-- `KeyExists`. -/
def keyExists (s : KVStore) (key : Bytes) : Bool := s.data.contains key

/-! ### Range queries -/

/-- The element `RangeInternal` appends for an entry. -/
def rangeElem (countOnly keysOnly : Bool) (info : KeyInfo) : KeyValue :=
  if countOnly then {}
  else if keysOnly then { key := info.kv.key }
  else info.kv

/-- The loop of `RangeInternal` over the sorted entries: `count` entries have been seen. -/
def rangeLoop (limit : Int) (countOnly keysOnly : Bool) : Int → List KeyInfo → List KeyValue
  | _, [] => []
  | count, info :: infos =>
    let count := count + 1
    if limit > 0 ∧ count > limit then []
    else rangeElem countOnly keysOnly info :: rangeLoop limit countOnly keysOnly count infos

/-- `RangeInternal`: what it appends to `kvs`. -/
def rangeInternal (s : KVStore) (start endKey : Bytes) (limit : Int) (countOnly keysOnly : Bool) :
    List KeyValue :=
  let matchingInfos := (s.data.toList.filter fun e => keyInRange e.1 start endKey).map Prod.snd
  let matchingInfos := matchingInfos.insertionSort fun a b => a.kv.key ≤ b.kv.key
  rangeLoop limit countOnly keysOnly 0 matchingInfos

/-- `Range`. -/
def range (s : KVStore) (start endKey : Bytes) (limit : Int) (countOnly keysOnly : Bool) :
    List KeyValue :=
  s.rangeInternal start endKey limit countOnly keysOnly

/-! ### Guards -/

/-- The lambda `getTargetValue` of `EvaluateCompare`. -/
def getTargetValue (cmp : Compare) (info : KeyInfo) : Int :=
  match cmp.target with
  | .VERSION => info.version
  | .CREATE => info.createRevision
  | .MOD => info.modRevision
  | .LEASE => info.kv.lease
  | _ => 0

/-- The comparison of two values under a `CompareResult`; a number the enum does not
name falls out of the switch, to `return false`. -/
def compareWith {α : Type} [LinearOrder α] (result : CompareResult) (a b : α) : Bool :=
  match result with
  | .EQUAL => a = b
  | .NOT_EQUAL => a ≠ b
  | .GREATER => a > b
  | .LESS => a < b
  | .other _ => false

/-- `EvaluateCompare`. -/
def evaluateCompare (cmp : Compare) (info : Option KeyInfo) : Bool :=
  match info with
  | none => false
  | some info =>
    match cmp.target with
    | .VALUE => compareWith cmp.result info.kv.value cmp.value
    | .VERSION | .CREATE | .MOD | .LEASE =>
      compareWith cmp.result (getTargetValue cmp info) cmp.version
    | .other _ => false

/-- The loop over the compares of `Txn`: it stops at the first that fails. -/
def evaluateCompares (s : KVStore) : List Compare → Bool
  | [] => true
  | cmp :: compares =>
    if !evaluateCompare cmp (s.data.find? cmp.key) then false else s.evaluateCompares compares

/-- A transaction's guard is the conjunction of its compares. -/
theorem evaluateCompares_iff {s : KVStore} {compares : List Compare} :
    s.evaluateCompares compares = true ↔
      ∀ cmp ∈ compares, evaluateCompare cmp (s.data.find? cmp.key) = true := by
  induction compares with
  | nil => simp [evaluateCompares]
  | cons cmp compares ih =>
    rw [evaluateCompares, List.forall_mem_cons, ← ih]
    cases evaluateCompare cmp (s.data.find? cmp.key) <;> simp

end KVStore

end EtcdLite
