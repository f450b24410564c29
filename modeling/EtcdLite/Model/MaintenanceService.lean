import EtcdLite.Model.KVService

/-!
# The maintenance service

The handler of `MaintenanceServiceImpl` (`maintenance_service_impl.cpp`). It reads the revision of
the store twice, for the header and for `raftIndex`; operations may fall in between, and `status`
takes the two readings.
-/

namespace EtcdLite

/-- `StatusResponse`, of which the server writes these fields. -/
structure StatusResponse where
  header : Option ResponseHeader := none
  version : String := ""
  dbSize : Int := 0
  leader : ℕ := 0
  raftIndex : Int := 0
  raftTerm : ℕ := 0
  raftAppliedIndex : ℕ := 0
  dbSizeInUse : Int := 0
  isLearner : Bool := false
  deriving DecidableEq, Repr

namespace MaintenanceService

/-- `Status`, when these are the store as it fills the header and as it reads `raftIndex`. -/
def status (s s' : KVStore) : StatusResponse :=
  { header := some { clusterId := s.clusterId, memberId := s.memberId,
                     revision := s.currentRevision, raftTerm := 1 },
    version := "3.5.0", dbSize := 0, leader := 1, raftIndex := s'.currentRevision, raftTerm := 1,
    raftAppliedIndex := 0, dbSizeInUse := 0, isLearner := false }

end MaintenanceService

end EtcdLite
