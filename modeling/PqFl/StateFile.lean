import PqFl.JsonValues
import PqFl.StateStore

/-!
# The state file

What `SaveLocked` writes and `Load` reads, record by record. A file holds the
value its text parses to, or a text cut short, which does not parse.
-/

set_option autoImplicit false

namespace PqFl.StateFile
open PqFl.Identifiers PqFl.Timestamps PqFl.StoreRecords PqFl.StateStore PqFl.JsonValues

def jobStatusText : JobStatus → String
  | .planned => "planned"
  | .running => "running"
  | .completed => "completed"
  | .superseded => "superseded"

def assignmentStatusText : AssignmentStatus → String
  | .leased => "leased"
  | .submitted => "submitted"
  | .aggregated => "aggregated"
  | .missed => "missed"
  | .expired => "expired"

def workerStatusText : WorkerStatus → String
  | .idle => "idle"
  | .leased => "leased"
  | .busy => "busy"

def readJobStatus (j : Json) : Option JobStatus :=
  (readString j).bind (ofText [.planned, .running, .completed, .superseded] jobStatusText)

def readAssignmentStatus (j : Json) : Option AssignmentStatus :=
  (readString j).bind (ofText [.leased, .submitted, .aggregated, .missed, .expired]
    assignmentStatusText)

def readWorkerStatus (j : Json) : Option WorkerStatus :=
  (readString j).bind (ofText [.idle, .leased, .busy] workerStatusText)

def readTaskStatus (j : Json) : Option TaskStatus :=
  (readString j).bind (ofText [.leased, .running, .completed, .failed, .submitted, .aggregated,
    .missed] taskStatusText)

@[simp] theorem read_jobStatusText (status : JobStatus) :
    readJobStatus (.string (jobStatusText status)) = some status := by
  cases status <;> decide

@[simp] theorem read_assignmentStatusText (status : AssignmentStatus) :
    readAssignmentStatus (.string (assignmentStatusText status)) = some status := by
  cases status <;> decide

@[simp] theorem read_workerStatusText (status : WorkerStatus) :
    readWorkerStatus (.string (workerStatusText status)) = some status := by
  cases status <;> decide

@[simp] theorem read_taskStatusText (status : TaskStatus) :
    readTaskStatus (.string (taskStatusText status)) = some status := by
  cases status <;> decide

def clientJson (client : PersistedClientRecord) : Json :=
  .object [("tenant_id", .string client.tenantId), ("model_id", .string client.modelId),
    ("client_id", .string client.clientId), ("peer_identity", .string client.peerIdentity),
    ("local_dataset_size", .integer client.localDatasetSize),
    ("hardware_info", .string client.hardwareInfo),
    ("dataset_fingerprint", .string client.datasetFingerprint),
    ("last_active_round", .integer client.lastActiveRound),
    ("registered_at", .string client.registeredAt)]

def loadClient (now : String) (j : Json) : Option PersistedClientRecord := do
  let tenantId ← j.value readString "tenant_id" ""
  let modelId ← j.value readString "model_id" ""
  let clientId ← j.value readString "client_id" ""
  let peerIdentity ← j.value readString "peer_identity" ""
  let localDatasetSize ← j.value readInteger "local_dataset_size" 0
  let hardwareInfo ← j.value readString "hardware_info" ""
  let datasetFingerprint ← j.value readString "dataset_fingerprint" ""
  let lastActiveRound ← j.value readInteger "last_active_round" (-1)
  let registeredAt ← j.value readString "registered_at" now
  return ⟨normalizeTenant tenantId, normalizeModel modelId, clientId, peerIdentity,
    localDatasetSize, hardwareInfo, datasetFingerprint, lastActiveRound, registeredAt⟩

theorem load_clientJson (now : String) (client : PersistedClientRecord) :
    loadClient now (clientJson client) = some { client with
      tenantId := normalizeTenant client.tenantId
      modelId := normalizeModel client.modelId } := by
  unfold loadClient clientJson
  simp [Json.member]

def modelJson (model : PersistedModelRecord) : Json :=
  .object [("tenant_id", .string model.tenantId), ("model_id", .string model.modelId),
    ("version", .integer model.version), ("latest_round", .integer model.latestRound),
    ("checkpoint_path", .string model.checkpointPath),
    ("aggregation_strategy", .string model.aggregationStrategy),
    ("key_version", .integer model.keyVersion), ("client_count", .integer model.clientCount),
    ("weight_dimension", .integer model.weightDimension), ("active", .boolean model.active),
    ("created_at", .string model.createdAt)]

def loadModel (now : String) (j : Json) : Option PersistedModelRecord := do
  let tenantId ← j.value readString "tenant_id" ""
  let modelId ← j.value readString "model_id" ""
  let version ← j.value readInteger "version" 0
  let latestRound ← j.value readInteger "latest_round" (-1)
  let checkpointPath ← j.value readString "checkpoint_path" ""
  let aggregationStrategy ← j.value readString "aggregation_strategy" "fedavg"
  let keyVersion ← j.value readInteger "key_version" 1
  let clientCount ← j.value readInteger "client_count" 0
  let weightDimension ← j.value readInteger "weight_dimension" 0
  let active ← j.value readBoolean "active" false
  let createdAt ← j.value readString "created_at" now
  return ⟨normalizeTenant tenantId, normalizeModel modelId, version, latestRound, checkpointPath,
    aggregationStrategy, keyVersion, clientCount, weightDimension, active, createdAt⟩

theorem load_modelJson (now : String) (model : PersistedModelRecord) :
    loadModel now (modelJson model) = some { model with
      tenantId := normalizeTenant model.tenantId
      modelId := normalizeModel model.modelId } := by
  unfold loadModel modelJson
  simp [Json.member]

def datasetJson (dataset : PersistedDatasetRecord) : Json :=
  .object [("tenant_id", .string dataset.tenantId), ("model_id", .string dataset.modelId),
    ("dataset_id", .string dataset.datasetId), ("fingerprint", .string dataset.fingerprint),
    ("storage_uri", .string dataset.storageUri), ("format", .string dataset.format),
    ("sample_count", .integer dataset.sampleCount), ("shard_count", .integer dataset.shardCount),
    ("active", .boolean dataset.active), ("created_at", .string dataset.createdAt)]

def loadDataset (now : String) (j : Json) : Option PersistedDatasetRecord := do
  let tenantId ← j.value readString "tenant_id" ""
  let modelId ← j.value readString "model_id" ""
  let datasetId ← j.value readString "dataset_id" ""
  let fingerprint ← j.value readString "fingerprint" ""
  let storageUri ← j.value readString "storage_uri" ""
  let format ← j.value readString "format" ""
  let sampleCount ← j.value readInteger "sample_count" 0
  let shardCount ← j.value readInteger "shard_count" 0
  let active ← j.value readBoolean "active" true
  let createdAt ← j.value readString "created_at" now
  return ⟨normalizeTenant tenantId, normalizeModel modelId, datasetId, fingerprint, storageUri,
    format, sampleCount, shardCount, active, createdAt⟩

theorem load_datasetJson (now : String) (dataset : PersistedDatasetRecord) :
    loadDataset now (datasetJson dataset) = some { dataset with
      tenantId := normalizeTenant dataset.tenantId
      modelId := normalizeModel dataset.modelId } := by
  unfold loadDataset datasetJson
  simp [Json.member]

def trainingJobJson (job : PersistedTrainingJobRecord) : Json :=
  .object [("job_id", .string job.jobId), ("tenant_id", .string job.tenantId),
    ("model_id", .string job.modelId), ("dataset_id", .string job.datasetId),
    ("target_rounds", .integer job.targetRounds),
    ("planned_clients", .integer job.plannedClients),
    ("min_clients_per_round", .integer job.minClientsPerRound),
    ("assignment_ttl_seconds", .integer job.assignmentTtlSeconds),
    ("status", .string (jobStatusText job.status)), ("current_round", .integer job.currentRound),
    ("completed_rounds", .integer job.completedRounds),
    ("active_model_version", .integer job.activeModelVersion),
    ("created_at", .string job.createdAt), ("activated_at", .string job.activatedAt),
    ("notes", .string job.notes)]

def loadTrainingJob (now : String) (j : Json) : Option PersistedTrainingJobRecord := do
  let jobId ← j.value readString "job_id" ""
  let tenantId ← j.value readString "tenant_id" ""
  let modelId ← j.value readString "model_id" ""
  let datasetId ← j.value readString "dataset_id" ""
  let targetRounds ← j.value readInteger "target_rounds" 0
  let plannedClients ← j.value readInteger "planned_clients" 0
  let minClientsPerRound ← j.value readInteger "min_clients_per_round" 0
  let assignmentTtlSeconds ← j.value readInteger "assignment_ttl_seconds" 120
  let status ← j.value readJobStatus "status" JobStatus.planned
  let currentRound ← j.value readInteger "current_round" 1
  let completedRounds ← j.value readInteger "completed_rounds" 0
  let activeModelVersion ← j.value readInteger "active_model_version" 0
  let createdAt ← j.value readString "created_at" now
  let activatedAt ← j.value readString "activated_at" ""
  let notes ← j.value readString "notes" ""
  return ⟨jobId, normalizeTenant tenantId, normalizeModel modelId, datasetId, targetRounds,
    plannedClients, minClientsPerRound, assignmentTtlSeconds, status, currentRound,
    completedRounds, activeModelVersion, createdAt, activatedAt, notes⟩

theorem load_trainingJobJson (now : String) (job : PersistedTrainingJobRecord) :
    loadTrainingJob now (trainingJobJson job) = some { job with
      tenantId := normalizeTenant job.tenantId
      modelId := normalizeModel job.modelId } := by
  unfold loadTrainingJob trainingJobJson
  simp [Json.member]

def assignmentJson (assignment : PersistedAssignmentLease) : Json :=
  .object [("assignment_id", .string assignment.assignmentId),
    ("job_id", .string assignment.jobId), ("tenant_id", .string assignment.tenantId),
    ("model_id", .string assignment.modelId), ("dataset_id", .string assignment.datasetId),
    ("client_id", .string assignment.clientId), ("round_index", .integer assignment.roundIndex),
    ("base_model_version", .integer assignment.baseModelVersion),
    ("status", .string (assignmentStatusText assignment.status)),
    ("issued_at", .string assignment.issuedAt), ("expires_at", .string assignment.expiresAt),
    ("updated_at", .string assignment.updatedAt), ("detail", .string assignment.detail)]

def loadAssignment (j : Json) : Option PersistedAssignmentLease := do
  let assignmentId ← j.value readString "assignment_id" ""
  let jobId ← j.value readString "job_id" ""
  let tenantId ← j.value readString "tenant_id" ""
  let modelId ← j.value readString "model_id" ""
  let datasetId ← j.value readString "dataset_id" ""
  let clientId ← j.value readString "client_id" ""
  let roundIndex ← j.value readInteger "round_index" 0
  let baseModelVersion ← j.value readInteger "base_model_version" 0
  let status ← j.value readAssignmentStatus "status" AssignmentStatus.leased
  let issuedAt ← j.value readString "issued_at" ""
  let expiresAt ← j.value readString "expires_at" ""
  let updatedAt ← j.value readString "updated_at" ""
  let detail ← j.value readString "detail" ""
  return ⟨assignmentId, jobId, normalizeTenant tenantId, normalizeModel modelId, datasetId,
    clientId, roundIndex, baseModelVersion, status, issuedAt, expiresAt, updatedAt, detail⟩

theorem load_assignmentJson (assignment : PersistedAssignmentLease) :
    loadAssignment (assignmentJson assignment) = some { assignment with
      tenantId := normalizeTenant assignment.tenantId
      modelId := normalizeModel assignment.modelId } := by
  unfold loadAssignment assignmentJson
  simp [Json.member]

def workerJson (worker : PersistedWorkerRecord) : Json :=
  .object [("worker_id", .string worker.workerId),
    ("trainer_client_id", .string worker.trainerClientId), ("tenant_id", .string worker.tenantId),
    ("model_id", .string worker.modelId), ("hostname", .string worker.hostname),
    ("launcher", .string worker.launcher),
    ("max_parallel_tasks", .integer worker.maxParallelTasks),
    ("labels", .array (worker.labels.map .string)),
    ("status", .string (workerStatusText worker.status)),
    ("registered_at", .string worker.registeredAt),
    ("last_heartbeat_at", .string worker.lastHeartbeatAt),
    ("active_task_id", .string worker.activeTaskId)]

def loadWorker (now : String) (j : Json) : Option PersistedWorkerRecord := do
  let workerId ← j.value readString "worker_id" ""
  let trainerClientId ← j.value readString "trainer_client_id" ""
  let tenantId ← j.value readString "tenant_id" ""
  let modelId ← j.value readString "model_id" ""
  let hostname ← j.value readString "hostname" ""
  let launcher ← j.value readString "launcher" ""
  let maxParallelTasks ← j.value readInteger "max_parallel_tasks" 1
  let labels ← j.value readStrings "labels" []
  let status ← j.value readWorkerStatus "status" WorkerStatus.idle
  let registeredAt ← j.value readString "registered_at" now
  let lastHeartbeatAt ← j.value readString "last_heartbeat_at" ""
  let activeTaskId ← j.value readString "active_task_id" ""
  return ⟨workerId, trainerClientId, normalizeTenant tenantId, normalizeModel modelId, hostname,
    launcher, maxParallelTasks, labels, status, registeredAt, lastHeartbeatAt, activeTaskId⟩

theorem load_workerJson (now : String) (worker : PersistedWorkerRecord) :
    loadWorker now (workerJson worker) = some { worker with
      tenantId := normalizeTenant worker.tenantId
      modelId := normalizeModel worker.modelId } := by
  unfold loadWorker workerJson
  simp [Json.member]

def workerTaskJson (task : PersistedWorkerTaskRecord) : Json :=
  .object [("task_id", .string task.taskId), ("worker_id", .string task.workerId),
    ("trainer_client_id", .string task.trainerClientId), ("job_id", .string task.jobId),
    ("assignment_id", .string task.assignmentId), ("tenant_id", .string task.tenantId),
    ("model_id", .string task.modelId), ("dataset_id", .string task.datasetId),
    ("round_index", .integer task.roundIndex),
    ("base_model_version", .integer task.baseModelVersion),
    ("status", .string (taskStatusText task.status)), ("detail", .string task.detail),
    ("progress_percent", .integer task.progressPercent), ("issued_at", .string task.issuedAt),
    ("started_at", .string task.startedAt), ("completed_at", .string task.completedAt),
    ("updated_at", .string task.updatedAt)]

def loadWorkerTask (j : Json) : Option PersistedWorkerTaskRecord := do
  let taskId ← j.value readString "task_id" ""
  let workerId ← j.value readString "worker_id" ""
  let trainerClientId ← j.value readString "trainer_client_id" ""
  let jobId ← j.value readString "job_id" ""
  let assignmentId ← j.value readString "assignment_id" ""
  let tenantId ← j.value readString "tenant_id" ""
  let modelId ← j.value readString "model_id" ""
  let datasetId ← j.value readString "dataset_id" ""
  let roundIndex ← j.value readInteger "round_index" 0
  let baseModelVersion ← j.value readInteger "base_model_version" 0
  let status ← j.value readTaskStatus "status" TaskStatus.leased
  let detail ← j.value readString "detail" ""
  let progressPercent ← j.value readInteger "progress_percent" 0
  let issuedAt ← j.value readString "issued_at" ""
  let startedAt ← j.value readString "started_at" ""
  let completedAt ← j.value readString "completed_at" ""
  let updatedAt ← j.value readString "updated_at" ""
  return ⟨taskId, workerId, trainerClientId, jobId, assignmentId, normalizeTenant tenantId,
    normalizeModel modelId, datasetId, roundIndex, baseModelVersion, status, detail,
    progressPercent, issuedAt, startedAt, completedAt, updatedAt⟩

theorem load_workerTaskJson (task : PersistedWorkerTaskRecord) :
    loadWorkerTask (workerTaskJson task) = some { task with
      tenantId := normalizeTenant task.tenantId
      modelId := normalizeModel task.modelId } := by
  unfold loadWorkerTask workerTaskJson
  simp [Json.member]

def auditEventJson (event : PersistedAuditEvent) : Json :=
  .object [("timestamp", .string event.timestamp), ("action", .string event.action),
    ("tenant_id", .string event.tenantId), ("model_id", .string event.modelId),
    ("client_id", .string event.clientId), ("detail", .string event.detail)]

def loadAuditEvent (now : String) (j : Json) : Option PersistedAuditEvent := do
  let timestamp ← j.value readString "timestamp" now
  let action ← j.value readString "action" ""
  let tenantId ← j.value readString "tenant_id" ""
  let modelId ← j.value readString "model_id" ""
  let clientId ← j.value readString "client_id" ""
  let detail ← j.value readString "detail" ""
  return ⟨timestamp, action, normalizeTenant tenantId, normalizeModel modelId, clientId, detail⟩

theorem load_auditEventJson (now : String) (event : PersistedAuditEvent) :
    loadAuditEvent now (auditEventJson event) = some { event with
      tenantId := normalizeTenant event.tenantId
      modelId := normalizeModel event.modelId } := by
  unfold loadAuditEvent auditEventJson
  simp [Json.member]

/-- The value which `SaveLocked` dumps. -/
def storeJson (s : StateStore) : Json :=
  .object [("completed_rounds", .integer s.completedRounds),
    ("total_submissions", .integer s.totalSubmissions),
    ("active_key_version", .integer s.activeKeyVersion),
    ("clients", .array (s.clients.map clientJson)),
    ("models", .array (s.models.map modelJson)),
    ("datasets", .array (s.datasets.map datasetJson)),
    ("training_jobs", .array (s.trainingJobs.map trainingJobJson)),
    ("assignments", .array (s.assignments.map assignmentJson)),
    ("workers", .array (s.workers.map workerJson)),
    ("worker_tasks", .array (s.workerTasks.map workerTaskJson)),
    ("audit_events", .array (s.auditEvents.map auditEventJson))]

/-- The records in a file, before leases expire. -/
def loadJson (auditRetention : ℕ) (now : String) (j : Json) : Option StateStore := do
  let completedRounds ← j.value readInteger "completed_rounds" 0
  let totalSubmissions ← j.value readInteger "total_submissions" 0
  let activeKeyVersion ← j.value readInteger "active_key_version" 1
  let clients ← j.records (loadClient now) "clients"
  let models ← j.records (loadModel now) "models"
  let datasets ← j.records (loadDataset now) "datasets"
  let trainingJobs ← j.records (loadTrainingJob now) "training_jobs"
  let assignments ← j.records loadAssignment "assignments"
  let workers ← j.records (loadWorker now) "workers"
  let workerTasks ← j.records loadWorkerTask "worker_tasks"
  let auditEvents ← j.records (loadAuditEvent now) "audit_events"
  return { emptyStore auditRetention with
    clients := clients
    models := models
    datasets := datasets
    trainingJobs := trainingJobs
    assignments := assignments
    workers := workers
    workerTasks := workerTasks
    auditEvents := auditEvents
    completedRounds := completedRounds
    totalSubmissions := totalSubmissions
    activeKeyVersion := activeKeyVersion }

theorem load_storeJson (auditRetention : ℕ) (now : String) (s : StateStore) :
    loadJson auditRetention now (storeJson s) =
      some { normalizedRecords s with auditRetention := max 1 auditRetention } := by
  have hclients := records_write "clients" (load_clientJson now) (j := storeJson s)
    (l := s.clients) rfl
  have hmodels := records_write "models" (load_modelJson now) (j := storeJson s)
    (l := s.models) rfl
  have hdatasets := records_write "datasets" (load_datasetJson now) (j := storeJson s)
    (l := s.datasets) rfl
  have hjobs := records_write "training_jobs" (load_trainingJobJson now) (j := storeJson s)
    (l := s.trainingJobs) rfl
  have hassignments := records_write "assignments" load_assignmentJson (j := storeJson s)
    (l := s.assignments) rfl
  have hworkers := records_write "workers" (load_workerJson now) (j := storeJson s)
    (l := s.workers) rfl
  have htasks := records_write "worker_tasks" load_workerTaskJson (j := storeJson s)
    (l := s.workerTasks) rfl
  have hevents := records_write "audit_events" (load_auditEventJson now) (j := storeJson s)
    (l := s.auditEvents) rfl
  have hcompleted : (storeJson s).value readInteger "completed_rounds" 0 =
    some s.completedRounds := rfl
  have htotal : (storeJson s).value readInteger "total_submissions" 0 =
    some s.totalSubmissions := rfl
  have hversion : (storeJson s).value readInteger "active_key_version" 1 =
    some s.activeKeyVersion := rfl
  simp only [loadJson, hcompleted, htotal, hversion, hclients, hmodels, hdatasets, hjobs,
    hassignments, hworkers, htasks, hevents]
  rfl

/-- A whole text is known by the value it parses to. -/
inductive FileText where
  | cut
  | whole (j : Json)

/-- `StateStore::Load` in a new process; without a file, or when it does not
parse, the store is empty. -/
def loadFile (auditRetention : ℕ) (file : Option FileText) (now : ℕ) : StateStore :=
  match file with
  | some (.whole j) =>
    match loadJson auditRetention (currentTimestamp now) j with
    | some records =>
      trimAuditEventsLocked (expireAssignmentsLocked records (currentTimestamp now))
    | none => emptyStore auditRetention
  | _ => emptyStore auditRetention

theorem loadFile_storeJson (auditRetention : ℕ) (s : StateStore) (now : ℕ) :
    loadFile auditRetention (some (.whole (storeJson s))) now =
      (load { s with auditRetention := max 1 auditRetention } now).store := by
  simp only [loadFile, load_storeJson]
  rfl

end PqFl.StateFile
