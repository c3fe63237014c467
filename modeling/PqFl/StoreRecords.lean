import PqFl.Identifiers
import PqFl.Timestamps

/-!
# The records of the state store

The persisted records of `state_store.hpp`. The statuses which the source
writes as strings are enumerations. The path of the state file is left out, and
the system status, which is computed from the records, has a module of its own.
-/

set_option autoImplicit false

namespace PqFl.StoreRecords

inductive JobStatus where
  | planned | running | completed | superseded
  deriving DecidableEq, Repr

inductive AssignmentStatus where
  | leased | submitted | aggregated | missed | expired
  deriving DecidableEq, Repr

inductive TaskStatus where
  | leased | running | completed | failed | submitted | aggregated | missed
  deriving DecidableEq, Repr

inductive WorkerStatus where
  | idle | leased | busy
  deriving DecidableEq, Repr

structure PersistedClientRecord where
  tenantId : String
  modelId : String
  clientId : String
  peerIdentity : String
  localDatasetSize : ℤ
  hardwareInfo : String
  datasetFingerprint : String
  lastActiveRound : ℤ
  registeredAt : String
  deriving DecidableEq, Repr

structure PersistedModelRecord where
  tenantId : String
  modelId : String
  version : ℤ
  latestRound : ℤ
  checkpointPath : String
  aggregationStrategy : String
  keyVersion : ℤ
  clientCount : ℤ
  weightDimension : ℤ
  active : Bool
  createdAt : String
  deriving DecidableEq, Repr

structure PersistedDatasetRecord where
  tenantId : String := ""
  modelId : String := ""
  datasetId : String := ""
  fingerprint : String := ""
  storageUri : String := ""
  format : String := ""
  sampleCount : ℤ := 0
  shardCount : ℤ := 0
  active : Bool := true
  createdAt : String := ""
  deriving DecidableEq, Repr

structure PersistedTrainingJobRecord where
  jobId : String
  tenantId : String
  modelId : String
  datasetId : String
  targetRounds : ℤ
  plannedClients : ℤ
  minClientsPerRound : ℤ
  assignmentTtlSeconds : ℤ
  status : JobStatus
  currentRound : ℤ
  completedRounds : ℤ
  activeModelVersion : ℤ
  createdAt : String
  activatedAt : String
  notes : String
  deriving DecidableEq, Repr

structure PersistedAssignmentLease where
  assignmentId : String
  jobId : String
  tenantId : String
  modelId : String
  datasetId : String
  clientId : String
  roundIndex : ℤ
  baseModelVersion : ℤ
  status : AssignmentStatus
  issuedAt : String
  expiresAt : String
  updatedAt : String
  detail : String
  deriving DecidableEq, Repr

structure PersistedWorkerRecord where
  workerId : String
  trainerClientId : String
  tenantId : String
  modelId : String
  hostname : String
  launcher : String
  maxParallelTasks : ℤ
  labels : List String
  status : WorkerStatus
  registeredAt : String
  lastHeartbeatAt : String
  activeTaskId : String
  deriving DecidableEq, Repr

structure PersistedWorkerTaskRecord where
  taskId : String
  workerId : String
  trainerClientId : String
  jobId : String
  assignmentId : String
  tenantId : String
  modelId : String
  datasetId : String
  roundIndex : ℤ
  baseModelVersion : ℤ
  status : TaskStatus
  detail : String
  progressPercent : ℤ
  issuedAt : String
  startedAt : String
  completedAt : String
  updatedAt : String
  deriving DecidableEq, Repr

structure PersistedAuditEvent where
  timestamp : String
  action : String
  tenantId : String
  modelId : String
  clientId : String
  detail : String
  deriving DecidableEq, Repr

structure StateStore where
  auditRetention : ℕ
  clients : List PersistedClientRecord
  models : List PersistedModelRecord
  datasets : List PersistedDatasetRecord
  trainingJobs : List PersistedTrainingJobRecord
  assignments : List PersistedAssignmentLease
  workers : List PersistedWorkerRecord
  workerTasks : List PersistedWorkerTaskRecord
  auditEvents : List PersistedAuditEvent
  completedRounds : ℤ
  totalSubmissions : ℤ
  activeKeyVersion : ℤ
  deriving DecidableEq, Repr

/-- `StateStore::StateStore`, before anything is loaded. -/
def emptyStore (auditRetention : ℕ) : StateStore where
  auditRetention := max 1 auditRetention
  clients := []
  models := []
  datasets := []
  trainingJobs := []
  assignments := []
  workers := []
  workerTasks := []
  auditEvents := []
  completedRounds := 0
  totalSubmissions := 0
  activeKeyVersion := 1

/-- What an operation of the store leaves behind: its result, the records in
memory, and whether it reached `SaveLocked` on the way. -/
structure Outcome (α : Type) where
  value : α
  store : StateStore
  save : Bool

end PqFl.StoreRecords
