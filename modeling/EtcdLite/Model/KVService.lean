import EtcdLite.Model.Server

/-!
# The KV service

The handlers of `KVServiceImpl` (`kv_service_impl.cpp`). The statuses they return are
`OK` always, as those of the store are, and are left out.
-/

namespace EtcdLite

/-- `CompactionRequest`. -/
structure CompactionRequest where
  revision : Int := 0
  physical : Bool := false
  deriving DecidableEq, Repr

/-- `CompactionResponse`. -/
structure CompactionResponse where
  header : Option ResponseHeader := none
  deriving DecidableEq, Repr

namespace KVService

open Server

/-- `FillResponseHeader`. -/
def responseHeader (s : Server) : ResponseHeader :=
  { clusterId := s.kvStore.clusterId, memberId := s.kvStore.memberId,
    revision := s.kvStore.currentRevision, raftTerm := 1 }

/-- `Put`. -/
def put (s : Server) (request : PutRequest) : PutResponse × Server :=
  let (prevKv, s) :=
    s.put request.key request.value request.lease (if request.prevKv then some {} else none)
  ({ header := some (responseHeader s), prevKv := if request.prevKv then prevKv else none }, s)

/-- `Range`. -/
def range (s : Server) (request : RangeRequest) : RangeResponse :=
  let kvs := s.kvStore.range request.key request.rangeEnd request.limit request.countOnly
    request.keysOnly
  { header := some (responseHeader s), kvs := kvs, count := kvs.length, more := false }

/-- `DeleteRange`. -/
def deleteRange (s : Server) (request : DeleteRangeRequest) : DeleteRangeResponse × Server :=
  let (prevKvs, s) := s.delete request.key request.rangeEnd true
  let prevKvs := prevKvs.getD []
  ({ header := some (responseHeader s), deleted := prevKvs.length,
     prevKvs := if request.prevKv then prevKvs else [] }, s)

/-- `Txn`. -/
def txn (s : Server) (request : TxnRequest) : TxnResponse × Server :=
  s.txn request.compare request.success request.failure

/-- `Compact`. Nothing is compacted. -/
def compact (s : Server) (_ : CompactionRequest) : CompactionResponse :=
  { header := some (responseHeader s) }

end KVService

end EtcdLite
