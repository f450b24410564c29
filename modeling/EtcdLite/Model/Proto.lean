import Mathlib.Data.List.Lex

/-!
# Messages and statuses

The protobuf messages the server reads and writes (`kv.proto`, `rpc.proto`), with
the fields the code uses, and the `Status` of `status.h`. Byte strings are lists
of bytes, compared as `std::string` compares them: lexicographically, bytes
unsigned. A field of message type that may be unset is an `Option`; an unset
`oneof` reads as the default of the member asked for.
-/

/-- Bytes in order of their unsigned value. -/
instance UInt8.linearOrder : LinearOrder UInt8 where
  le_refl _ := UInt8.le_refl _
  le_trans _ _ _ := UInt8.le_trans
  lt_iff_le_not_ge a b := by
    simp only [UInt8.lt_iff_toNat_lt, UInt8.le_iff_toNat_le]
    omega
  le_antisymm _ _ := UInt8.le_antisymm
  le_total := UInt8.le_total
  toDecidableLE := inferInstance

namespace EtcdLite

/-- A byte string: `std::string`, and protobuf `bytes`. -/
abbrev Bytes := List UInt8

/-! ### Statuses -/

/-- `StatusCode`. -/
inductive StatusCode where
  | ok | invalidArgument | notFound | alreadyExists | failedPrecondition | outOfRange
  | internal | unimplemented | unknown
  deriving DecidableEq, Repr

/-- `Status`. -/
structure Status where
  /-- The code. -/
  code : StatusCode
  /-- The message. -/
  message : String
  deriving DecidableEq, Repr

/-- `Status::OK()`. -/
def Status.OK : Status := ⟨.ok, ""⟩

/-- `IsError`. -/
def Status.isError (status : Status) : Bool := status.code ≠ .ok

/-! ### Key-values and headers -/

/-- `mvccpb::KeyValue`. -/
structure KeyValue where
  key : Bytes := []
  createRevision : Int := 0
  modRevision : Int := 0
  version : Int := 0
  value : Bytes := []
  lease : Int := 0
  deriving DecidableEq, Repr

/-- `ResponseHeader`. -/
structure ResponseHeader where
  clusterId : ℕ := 0
  memberId : ℕ := 0
  revision : Int := 0
  raftTerm : ℕ := 0
  deriving DecidableEq, Repr

/-! ### Requests -/

/-- `RangeRequest`, of which the server reads these fields. -/
structure RangeRequest where
  key : Bytes := []
  rangeEnd : Bytes := []
  limit : Int := 0
  keysOnly : Bool := false
  countOnly : Bool := false
  deriving DecidableEq, Repr

/-- `PutRequest`, of which the server reads these fields. -/
structure PutRequest where
  key : Bytes := []
  value : Bytes := []
  lease : Int := 0
  prevKv : Bool := false
  deriving DecidableEq, Repr

/-- `DeleteRangeRequest`. -/
structure DeleteRangeRequest where
  key : Bytes := []
  rangeEnd : Bytes := []
  prevKv : Bool := false
  deriving DecidableEq, Repr

/-- `Compare::CompareResult`. A proto3 enum is open: `other` is a number it does not name. -/
inductive CompareResult where
  | EQUAL | GREATER | LESS | NOT_EQUAL | other (n : Int)
  deriving DecidableEq, Repr

/-- `Compare::CompareTarget`, open too. -/
inductive CompareTarget where
  | VERSION | CREATE | MOD | VALUE | LEASE | other (n : Int)
  deriving DecidableEq, Repr

/-- The `oneof target_union` of a `Compare`. -/
inductive TargetUnion where
  | notSet
  | version (v : Int)
  | createRevision (v : Int)
  | modRevision (v : Int)
  | value (v : Bytes)
  | lease (v : Int)
  deriving DecidableEq, Repr

/-- `Compare`. -/
structure Compare where
  result : CompareResult := .EQUAL
  target : CompareTarget := .VERSION
  key : Bytes := []
  targetUnion : TargetUnion := .notSet
  deriving DecidableEq, Repr

/-- `cmp.version()`: the member `version`, or `0` when another member or none is set. -/
def Compare.version (cmp : Compare) : Int :=
  match cmp.targetUnion with
  | .version v => v
  | _ => 0

/-- `cmp.value()`: the member `value`, or empty when another member or none is set. -/
def Compare.value (cmp : Compare) : Bytes :=
  match cmp.targetUnion with
  | .value v => v
  | _ => []

/-- `RequestOp`: its `oneof request`, with a nested transaction written out. -/
inductive RequestOp where
  | notSet
  | requestRange (r : RangeRequest)
  | requestPut (r : PutRequest)
  | requestDeleteRange (r : DeleteRangeRequest)
  | requestTxn (compare : List Compare) (success failure : List RequestOp)

/-- `TxnRequest`. -/
structure TxnRequest where
  compare : List Compare := []
  success : List RequestOp := []
  failure : List RequestOp := []

/-! ### Responses -/

/-- `RangeResponse`. -/
structure RangeResponse where
  header : Option ResponseHeader := none
  kvs : List KeyValue := []
  more : Bool := false
  count : Int := 0
  deriving DecidableEq, Repr

/-- `PutResponse`. -/
structure PutResponse where
  header : Option ResponseHeader := none
  prevKv : Option KeyValue := none
  deriving DecidableEq, Repr

/-- `DeleteRangeResponse`. -/
structure DeleteRangeResponse where
  header : Option ResponseHeader := none
  deleted : Int := 0
  prevKvs : List KeyValue := []
  deriving DecidableEq, Repr

/-- `ResponseOp`: its `oneof response`, with a nested transaction's response written out. -/
inductive ResponseOp where
  | notSet
  | responseRange (r : RangeResponse)
  | responsePut (r : PutResponse)
  | responseDeleteRange (r : DeleteRangeResponse)
  | responseTxn (header : Option ResponseHeader) (succeeded : Bool) (responses : List ResponseOp)

/-- `TxnResponse`. -/
structure TxnResponse where
  header : Option ResponseHeader := none
  succeeded : Bool := false
  responses : List ResponseOp := []

end EtcdLite
