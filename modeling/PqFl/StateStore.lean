import PqFl.ListUpdate
import PqFl.StoreRecords

/-!
# The operations of the state store

The methods of `state_store.cpp`, one definition each. A method runs under the
store's mutex and is one step of the server. It reads the clock once, as `now`;
the source reads it again where it stamps an audit event. Every result says
whether `SaveLocked` was reached, since some refusals return without saving.
-/

set_option autoImplicit false

namespace PqFl.StateStore
open PqFl.Identifiers PqFl.Timestamps PqFl.StoreRecords PqFl.ListUpdate

def isActiveJobStatus (status : JobStatus) : Bool := status == .planned || status == .running

def trimAuditEventsLocked (s : StateStore) : StateStore :=
  if s.auditRetention < s.auditEvents.length then
    { s with auditEvents := s.auditEvents.drop (s.auditEvents.length - s.auditRetention) }
  else s

/-- `audit_events_.push_back(event)` followed by the trim. -/
def pushAuditEvent (s : StateStore) (event : PersistedAuditEvent) : StateStore :=
  trimAuditEventsLocked { s with auditEvents := s.auditEvents ++ [event] }

def hasLapsed (now : String) (a : PersistedAssignmentLease) : Bool :=
  a.status == .leased && a.expiresAt != "" && decide (a.expiresAt ≤ now)

def expireAssignmentsLocked (s : StateStore) (now : String) : StateStore :=
  let lapsed := s.assignments.filter (hasLapsed now)
  let s' := { s with
    assignments := s.assignments.map (fun a => if hasLapsed now a then
      { a with
        status := .expired
        updatedAt := now
        detail := "Lease expired before submission" } else a)
    auditEvents := s.auditEvents ++ lapsed.map (fun a =>
      ⟨now, "assignment_expired", a.tenantId, a.modelId, a.clientId,
        "Assignment " ++ a.assignmentId ++ " expired"⟩) }
  if lapsed.isEmpty then s' else trimAuditEventsLocked s'

def isClient (tenantId modelId clientId : String) (c : PersistedClientRecord) : Bool :=
  c.tenantId == tenantId && c.modelId == modelId && c.clientId == clientId

def recordClientRegistration (s : StateStore) (record : PersistedClientRecord) (now : ℕ) :
    Outcome Unit :=
  let tenantId := normalizeTenant record.tenantId
  let modelId := normalizeModel record.modelId
  let known := isClient tenantId modelId record.clientId
  let clients :=
    if s.clients.any known then
      updateFirst known (fun c => { c with
        peerIdentity :=
          if c.peerIdentity == "" && record.peerIdentity != "" then record.peerIdentity
          else c.peerIdentity
        localDatasetSize := record.localDatasetSize
        hardwareInfo := record.hardwareInfo
        datasetFingerprint := record.datasetFingerprint }) s.clients
    else s.clients ++ [{ record with
      tenantId := tenantId
      modelId := modelId
      registeredAt :=
        if record.registeredAt = "" then currentTimestamp now else record.registeredAt }]
  ⟨(), { s with clients := clients }, true⟩

def updateClientLastRound (s : StateStore) (tenantId modelId clientId : String) (round : ℤ) :
    Outcome Unit :=
  let known := isClient (normalizeTenant tenantId) (normalizeModel modelId) clientId
  let clients := updateFirst known
    (fun c => { c with lastActiveRound := max c.lastActiveRound round }) s.clients
  ⟨(), { s with clients := clients }, true⟩

def recordWeightSubmission (s : StateStore) (tenantId modelId clientId : String) (round : ℤ)
    (now : ℕ) : Outcome Unit :=
  let s' := { s with totalSubmissions := s.totalSubmissions + 1 }
  ⟨(), pushAuditEvent s' ⟨currentTimestamp now, "weight_submission", normalizeTenant tenantId,
    normalizeModel modelId, clientId, "Accepted submission for round " ++ toString round⟩, true⟩

def recordAuditEvent (s : StateStore) (event : PersistedAuditEvent) (now : ℕ) : Outcome Unit :=
  ⟨(), pushAuditEvent s { event with
    timestamp := if event.timestamp = "" then currentTimestamp now else event.timestamp
    tenantId := normalizeTenant event.tenantId
    modelId := normalizeModel event.modelId }, true⟩

def updateActiveKeyVersion (s : StateStore) (activeKeyVersion : ℤ) (now : ℕ) : Outcome Unit :=
  if s.activeKeyVersion = activeKeyVersion then ⟨(), s, false⟩
  else ⟨(), pushAuditEvent { s with activeKeyVersion := activeKeyVersion }
    ⟨currentTimestamp now, "key_rotation", "default-tenant", "default-model", "",
      "Active at-rest key version is now " ++ toString activeKeyVersion⟩, true⟩

def isModelOf (tenantId modelId : String) (m : PersistedModelRecord) : Bool :=
  m.tenantId == tenantId && m.modelId == modelId

def deactivate (tenantId modelId : String) (m : PersistedModelRecord) : PersistedModelRecord :=
  if isModelOf tenantId modelId m then { m with active := false } else m

def nextVersion (models : List PersistedModelRecord) (tenantId modelId : String) : ℤ :=
  models.foldl (fun next m => if isModelOf tenantId modelId m then max next (m.version + 1)
    else next) 1

def recordAggregatedModel (s : StateStore) (tenantId modelId : String) (round : ℤ)
    (checkpointPath aggregationStrategy : String) (keyVersion clientCount weightDimension : ℤ)
    (now : ℕ) : Outcome ℤ :=
  let tenantId := normalizeTenant tenantId
  let modelId := normalizeModel modelId
  let version := nextVersion s.models tenantId modelId
  let s' := { s with
    models := s.models.map (deactivate tenantId modelId) ++
      [⟨tenantId, modelId, version, round, checkpointPath, aggregationStrategy, keyVersion,
        clientCount, weightDimension, true, currentTimestamp now⟩]
    completedRounds := s.completedRounds + 1 }
  ⟨version, pushAuditEvent s' ⟨currentTimestamp now, "model_aggregated", tenantId, modelId, "",
    "Stored model version " ++ toString version ++ " for round " ++ toString round⟩, true⟩

def isVersionOf (tenantId modelId : String) (version : ℤ) (m : PersistedModelRecord) : Bool :=
  isModelOf tenantId modelId m && m.version == version

def rollbackModel (s : StateStore) (tenantId modelId : String) (targetVersion : ℤ) (now : ℕ) :
    Outcome (Option PersistedModelRecord) :=
  let tenantId := normalizeTenant tenantId
  let modelId := normalizeModel modelId
  let wanted := isVersionOf tenantId modelId targetVersion
  match s.models.find? wanted with
  | none => ⟨none, s, false⟩
  | some target =>
    let models := updateFirst wanted (fun m => { m with active := true })
      (s.models.map (deactivate tenantId modelId))
    ⟨some { target with active := true }, pushAuditEvent { s with models := models }
      ⟨currentTimestamp now, "model_rollback", tenantId, modelId, "",
        "Activated model version " ++ toString targetVersion⟩, true⟩

def isActiveModelOf (tenantId modelId : String) (m : PersistedModelRecord) : Bool :=
  isModelOf tenantId modelId m && m.active

def getActiveModelRecord (s : StateStore) (tenantId modelId : String) :
    Option PersistedModelRecord :=
  s.models.find? (isActiveModelOf (normalizeTenant tenantId) (normalizeModel modelId))

def getActiveModelVersion (s : StateStore) (tenantId modelId : String) : ℤ :=
  match getActiveModelRecord s tenantId modelId with
  | some m => m.version
  | none => 0

def getActiveModels (s : StateStore) : List PersistedModelRecord := s.models.filter (·.active)

def isDataset (tenantId modelId datasetId : String) (d : PersistedDatasetRecord) : Bool :=
  d.tenantId == tenantId && d.modelId == modelId && d.datasetId == datasetId

def upsertDataset (s : StateStore) (record : PersistedDatasetRecord) (now : ℕ) :
    Outcome PersistedDatasetRecord :=
  let saved := { record with
    tenantId := normalizeTenant record.tenantId
    modelId := normalizeModel record.modelId
    createdAt := if record.createdAt = "" then currentTimestamp now else record.createdAt }
  let known := isDataset saved.tenantId saved.modelId saved.datasetId
  let (saved, datasets) := match s.datasets.find? known with
    | none => (saved, s.datasets ++ [saved])
    | some existing =>
      let saved := { saved with createdAt := existing.createdAt }
      (saved, updateFirst known (fun _ => saved) s.datasets)
  ⟨saved, pushAuditEvent { s with datasets := datasets } ⟨currentTimestamp now,
    "dataset_upserted", saved.tenantId, saved.modelId, "",
    "Dataset " ++ saved.datasetId ++ " now points to " ++ saved.storageUri⟩, true⟩

def getDataset (s : StateStore) (tenantId modelId datasetId : String) :
    Option PersistedDatasetRecord :=
  s.datasets.find? (isDataset (normalizeTenant tenantId) (normalizeModel modelId) datasetId)

/-- A planned or running job of the scope. -/
def isActiveJobOf (tenantId modelId : String) (j : PersistedTrainingJobRecord) : Bool :=
  j.tenantId == tenantId && j.modelId == modelId && isActiveJobStatus j.status

def createTrainingJob (s : StateStore) (record : PersistedTrainingJobRecord) (now : ℕ) :
    Outcome PersistedTrainingJobRecord :=
  let tenantId := normalizeTenant record.tenantId
  let modelId := normalizeModel record.modelId
  let createdAt := currentTimestamp now
  let saved := { record with
    tenantId := tenantId
    modelId := modelId
    createdAt := createdAt
    currentRound := max 1 record.currentRound
    assignmentTtlSeconds := max 30 record.assignmentTtlSeconds
    jobId := if record.jobId = "" then
      tenantId ++ "::" ++ modelId ++ "::" ++ record.datasetId ++ "::" ++ createdAt
      else record.jobId
    activeModelVersion := getActiveModelVersion s tenantId modelId }
  let trainingJobs := s.trainingJobs.map (fun j =>
    if isActiveJobOf tenantId modelId j then { j with status := .superseded } else j) ++ [saved]
  ⟨saved, pushAuditEvent { s with trainingJobs := trainingJobs } ⟨currentTimestamp now,
    "training_job_created", tenantId, modelId, "",
    "Created job " ++ saved.jobId ++ " for dataset " ++ saved.datasetId⟩, true⟩

/-- The scan from the back which every operation on jobs starts with. -/
def getActiveTrainingJob (s : StateStore) (tenantId modelId : String) :
    Option PersistedTrainingJobRecord :=
  findLast (isActiveJobOf (normalizeTenant tenantId) (normalizeModel modelId)) s.trainingJobs

/-- Writes through the pointer which that scan returns. -/
def updateActiveTrainingJob (s : StateStore) (tenantId modelId : String)
    (f : PersistedTrainingJobRecord → PersistedTrainingJobRecord) : StateStore :=
  let active := isActiveJobOf (normalizeTenant tenantId) (normalizeModel modelId)
  { s with trainingJobs := updateLast active f s.trainingJobs }

/-- A lease of this job and round which has not run out. -/
def isLiveLease (jobId : String) (roundIndex : ℤ) (now : String) (a : PersistedAssignmentLease) :
    Bool :=
  a.jobId == jobId && a.roundIndex == roundIndex && a.status == .leased &&
    decide (now < a.expiresAt)

/-- `dataset_out` of a granted lease; the caller passes a default record. -/
def leasedDataset (s : StateStore) (tenantId modelId : String) (job : PersistedTrainingJobRecord) :
    PersistedDatasetRecord :=
  (s.datasets.find? (isDataset (normalizeTenant tenantId) (normalizeModel modelId)
    job.datasetId)).getD {}

def newLease (job : PersistedTrainingJobRecord) (tenantId modelId clientId : String)
    (activeModelVersion defaultAssignmentTtlSeconds : ℤ) (now : ℕ) : PersistedAssignmentLease :=
  let roundIndex := max 1 job.currentRound
  { assignmentId := job.jobId ++ "::round:" ++ toString roundIndex ++ "::client:" ++ clientId ++
      "::" ++ currentTimestamp now
    jobId := job.jobId
    tenantId := normalizeTenant tenantId
    modelId := normalizeModel modelId
    datasetId := job.datasetId
    clientId := clientId
    roundIndex := roundIndex
    baseModelVersion := activeModelVersion
    status := .leased
    issuedAt := currentTimestamp now
    expiresAt := timestampAfterSeconds now
      (if job.assignmentTtlSeconds > 0 then job.assignmentTtlSeconds
        else defaultAssignmentTtlSeconds)
    updatedAt := currentTimestamp now
    detail := "Lease issued" }

def roundCapacity (job : PersistedTrainingJobRecord) (defaultMinClients : ℤ) : ℤ :=
  if job.plannedClients > 0 then job.plannedClients
  else max 1 (if job.minClientsPerRound > 0 then job.minClientsPerRound else defaultMinClients)

structure LeasedAssignment where
  assignment : PersistedAssignmentLease
  job : PersistedTrainingJobRecord
  dataset : PersistedDatasetRecord
  deriving DecidableEq, Repr

/-- The job as leasing from it leaves it. -/
def runningJob (now : String) (job : PersistedTrainingJobRecord) : PersistedTrainingJobRecord :=
  if job.status = .planned then { job with status := .running, activatedAt := now } else job

/-- A lease the client still has, or a new one while the round has room. -/
def grantLease (s : StateStore) (job : PersistedTrainingJobRecord)
    (tenantId modelId clientId : String)
    (activeModelVersion defaultMinClients defaultAssignmentTtlSeconds : ℤ) (now : ℕ) :
    Outcome (Option LeasedAssignment) :=
  let time := currentTimestamp now
  let roundIndex := max 1 job.currentRound
  match s.assignments.find? (fun a =>
      isLiveLease job.jobId roundIndex time a && a.clientId == clientId) with
  | some assignment => ⟨some ⟨assignment, job, leasedDataset s tenantId modelId job⟩, s, true⟩
  | none =>
    let leasedCount := (s.assignments.filter (isLiveLease job.jobId roundIndex time)).length
    if roundCapacity job defaultMinClients ≤ leasedCount then ⟨none, s, true⟩
    else
      let assignment := newLease job tenantId modelId clientId activeModelVersion
        defaultAssignmentTtlSeconds now
      let s := pushAuditEvent { s with assignments := s.assignments ++ [assignment] }
        ⟨time, "assignment_leased", normalizeTenant tenantId, normalizeModel modelId, clientId,
          "Issued assignment " ++ assignment.assignmentId ++ " for round " ++ toString roundIndex⟩
      ⟨some ⟨assignment, job, leasedDataset s tenantId modelId job⟩, s, true⟩

def leaseTrainingAssignment (s : StateStore) (tenantId modelId clientId : String)
    (activeModelVersion defaultMinClients defaultAssignmentTtlSeconds : ℤ) (now : ℕ) :
    Outcome (Option LeasedAssignment) :=
  let time := currentTimestamp now
  let s := expireAssignmentsLocked s time
  match getActiveTrainingJob s tenantId modelId with
  | none => ⟨none, s, false⟩
  | some job =>
    if job.targetRounds > 0 ∧ job.completedRounds ≥ job.targetRounds then
      ⟨none, updateActiveTrainingJob s tenantId modelId
        (fun j => { j with status := .completed }), true⟩
    else
      let job := runningJob time job
      grantLease (updateActiveTrainingJob s tenantId modelId (fun _ => job)) job tenantId modelId
        clientId activeModelVersion defaultMinClients defaultAssignmentTtlSeconds now

/-- What the checks shared by validation and acceptance come to. -/
inductive SubmissionCheck where
  | noActiveJob
  | refused (errorMessage : String)
  | lapsed
  | passed (assignment : PersistedAssignmentLease)
  deriving DecidableEq, Repr

/-- The checks which `ValidateTrainingAssignmentSubmission` and
`AcceptTrainingAssignmentSubmission` both write out. The loop over the
assignments decides at the first record with the given id. -/
def checkTrainingAssignmentSubmission (s : StateStore)
    (tenantId modelId clientId jobId assignmentId : String) (round baseModelVersion : ℤ)
    (now : String) : SubmissionCheck :=
  match getActiveTrainingJob s tenantId modelId with
  | none => .noActiveJob
  | some activeJob =>
    if jobId = "" ∨ assignmentId = "" then
      .refused "assignment_id and job_id are required while a scheduled training job is active"
    else if jobId ≠ activeJob.jobId then
      .refused "submission does not match the active training job"
    else match s.assignments.find? (fun a => a.assignmentId == assignmentId) with
      | none => .refused "assignment not found"
      | some a =>
        if a.clientId ≠ clientId ∨ a.tenantId ≠ normalizeTenant tenantId ∨
            a.modelId ≠ normalizeModel modelId then
          .refused "assignment belongs to a different scope or client"
        else if a.status ≠ .leased then .refused "assignment is not in a leasable state"
        else if a.expiresAt ≠ "" ∧ a.expiresAt ≤ now then .lapsed
        else if a.roundIndex ≠ round then .refused "submission round does not match leased round"
        else if baseModelVersion > 0 ∧ a.baseModelVersion > 0 ∧
            a.baseModelVersion ≠ baseModelVersion then
          .refused "submission base model version does not match assigned model version"
        else .passed a

/-- Writes to the first assignment with this id. -/
def updateAssignment (s : StateStore) (assignmentId : String)
    (f : PersistedAssignmentLease → PersistedAssignmentLease) : StateStore :=
  { s with assignments := updateFirst (fun a => a.assignmentId == assignmentId) f s.assignments }

def expireAtSubmission (now : String) (a : PersistedAssignmentLease) : PersistedAssignmentLease :=
  { a with status := .expired, updatedAt := now, detail := "Expired at submission time" }

def validateTrainingAssignmentSubmission (s : StateStore)
    (tenantId modelId clientId jobId assignmentId : String) (round baseModelVersion : ℤ)
    (now : ℕ) : Outcome (Except String Unit) :=
  let time := currentTimestamp now
  let s := expireAssignmentsLocked s time
  match checkTrainingAssignmentSubmission s tenantId modelId clientId jobId assignmentId round
      baseModelVersion time with
  | .noActiveJob => ⟨.ok (), s, false⟩
  | .refused errorMessage => ⟨.error errorMessage, s, false⟩
  | .lapsed => ⟨.error "assignment lease expired",
      updateAssignment s assignmentId (expireAtSubmission time), true⟩
  | .passed _ => ⟨.ok (), s, false⟩

def submitTask (now : String) (task : PersistedWorkerTaskRecord) : PersistedWorkerTaskRecord :=
  { task with
    status := .submitted
    detail := "Weights submitted to control plane"
    progressPercent := 100
    updatedAt := now
    completedAt := if task.completedAt = "" then now else task.completedAt }

/-- The worker goes idle and forgets the task if it was working on it. -/
def releaseWorker (now taskId : String) (w : PersistedWorkerRecord) : PersistedWorkerRecord :=
  { w with
    status := .idle
    activeTaskId := if w.activeTaskId = taskId then "" else w.activeTaskId
    lastHeartbeatAt := now }

def acceptTrainingAssignmentSubmission (s : StateStore)
    (tenantId modelId clientId jobId assignmentId : String) (round baseModelVersion : ℤ)
    (now : ℕ) : Outcome (Except String Unit) :=
  let time := currentTimestamp now
  let s := expireAssignmentsLocked s time
  match checkTrainingAssignmentSubmission s tenantId modelId clientId jobId assignmentId round
      baseModelVersion time with
  | .noActiveJob => ⟨.ok (), s, false⟩
  | .refused errorMessage => ⟨.error errorMessage, s, false⟩
  | .lapsed => ⟨.error "assignment lease expired",
      updateAssignment s assignmentId (expireAtSubmission time), true⟩
  | .passed assignment =>
    let ofAssignment := fun task : PersistedWorkerTaskRecord =>
      task.assignmentId == assignment.assignmentId
    let s := updateAssignment s assignmentId (fun a =>
      { a with status := .submitted, updatedAt := time, detail := "Client submitted weights" })
    let s := { s with
      workerTasks := s.workerTasks.map (fun task =>
        if ofAssignment task then submitTask time task else task)
      workers := (s.workerTasks.filter ofAssignment).foldl (fun workers task =>
        updateFirst (fun w => w.workerId == task.workerId) (releaseWorker time task.taskId)
          workers) s.workers }
    ⟨.ok (), pushAuditEvent s ⟨time, "assignment_submitted", normalizeTenant tenantId,
      normalizeModel modelId, clientId, "Accepted assignment " ++ assignmentId⟩, true⟩

/-- The assignments of the advanced round. -/
def closeAssignment (jobId : String) (round : ℤ) (now : String) (a : PersistedAssignmentLease) :
    PersistedAssignmentLease :=
  if a.jobId = jobId ∧ a.roundIndex = round then
    { a with
      status := match a.status with
        | .submitted => .aggregated
        | .leased => .missed
        | status => status
      updatedAt := now }
  else a

def isTaskOf (jobId : String) (round : ℤ) (task : PersistedWorkerTaskRecord) : Bool :=
  task.jobId == jobId && task.roundIndex == round

def closeTask (now : String) (task : PersistedWorkerTaskRecord) : PersistedWorkerTaskRecord :=
  let status := match task.status with
    | .submitted => .aggregated
    | .completed => .aggregated
    | .leased => .missed
    | .running => .missed
    | status => status
  { task with
    status := status
    updatedAt := now
    completedAt := if task.completedAt = "" ∧ (status = .aggregated ∨ status = .missed) then now
      else task.completedAt }

def advanceTrainingJobRound (s : StateStore) (tenantId modelId : String)
    (round activeModelVersion : ℤ) (now : ℕ) : Outcome Unit :=
  let time := currentTimestamp now
  match getActiveTrainingJob s tenantId modelId with
  | none => ⟨(), s, false⟩
  | some job =>
    let s := { s with
      assignments := s.assignments.map (closeAssignment job.jobId round time)
      workerTasks := s.workerTasks.map (fun task =>
        if isTaskOf job.jobId round task then closeTask time task else task)
      workers := (s.workerTasks.filter (isTaskOf job.jobId round)).foldl (fun workers task =>
        workers.map (fun w => if w.workerId = task.workerId ∧ w.activeTaskId = task.taskId then
          releaseWorker time task.taskId w else w)) s.workers }
    let s := updateActiveTrainingJob s tenantId modelId (fun j => { j with
      status := if j.targetRounds > 0 ∧ j.completedRounds + 1 ≥ j.targetRounds then .completed
        else .running
      activatedAt := if j.activatedAt = "" then time else j.activatedAt
      completedRounds := j.completedRounds + 1
      currentRound := round + 1
      activeModelVersion := activeModelVersion })
    ⟨(), pushAuditEvent s ⟨time, "training_round_advanced", normalizeTenant tenantId,
      normalizeModel modelId, "", "Job " ++ job.jobId ++ " advanced after round " ++
        toString round⟩, true⟩

def upsertWorker (s : StateStore) (record : PersistedWorkerRecord) (now : ℕ) :
    Outcome PersistedWorkerRecord :=
  let registeredAt := if record.registeredAt = "" then currentTimestamp now
    else record.registeredAt
  let saved := { record with
    tenantId := normalizeTenant record.tenantId
    modelId := normalizeModel record.modelId
    maxParallelTasks := max 1 record.maxParallelTasks
    registeredAt := registeredAt
    lastHeartbeatAt := if record.lastHeartbeatAt = "" then registeredAt
      else record.lastHeartbeatAt }
  let known := fun w : PersistedWorkerRecord => w.workerId == saved.workerId
  let (saved, workers) := match s.workers.find? known with
    | none => (saved, s.workers ++ [saved])
    | some existing =>
      let saved := { saved with
        registeredAt := existing.registeredAt
        activeTaskId := if saved.activeTaskId = "" then existing.activeTaskId
          else saved.activeTaskId }
      (saved, updateFirst known (fun _ => saved) s.workers)
  ⟨saved, pushAuditEvent { s with workers := workers } ⟨currentTimestamp now, "worker_upserted",
    saved.tenantId, saved.modelId, saved.trainerClientId,
    "Worker " ++ saved.workerId ++ " registered launcher " ++ saved.launcher⟩, true⟩

def getWorker (s : StateStore) (workerId : String) : Option PersistedWorkerRecord :=
  s.workers.find? (fun w => w.workerId == workerId)

def occupyWorker (now taskId : String) (w : PersistedWorkerRecord) : PersistedWorkerRecord :=
  { w with status := .leased, lastHeartbeatAt := now, activeTaskId := taskId }

def leaseWorkerTask (s : StateStore) (worker : PersistedWorkerRecord)
    (assignment : PersistedAssignmentLease) (job : PersistedTrainingJobRecord)
    (dataset : PersistedDatasetRecord) (now : ℕ) : Outcome PersistedWorkerTaskRecord :=
  let time := currentTimestamp now
  let same := fun w : PersistedWorkerRecord => w.workerId == worker.workerId
  let known := fun task : PersistedWorkerTaskRecord =>
    task.assignmentId == assignment.assignmentId && task.workerId == worker.workerId
  match s.workerTasks.find? known with
  | some task =>
    let task := { task with updatedAt := time }
    ⟨task, { s with
      workerTasks := updateFirst known (fun _ => task) s.workerTasks
      workers := s.workers.map (fun w => if same w then occupyWorker time task.taskId w else w) },
      true⟩
  | none =>
    let task : PersistedWorkerTaskRecord := {
      taskId := assignment.assignmentId ++ "::worker:" ++ worker.workerId
      workerId := worker.workerId
      trainerClientId := worker.trainerClientId
      jobId := job.jobId
      assignmentId := assignment.assignmentId
      tenantId := assignment.tenantId
      modelId := assignment.modelId
      datasetId := dataset.datasetId
      roundIndex := assignment.roundIndex
      baseModelVersion := assignment.baseModelVersion
      status := .leased
      detail := "Worker task leased"
      progressPercent := 0
      issuedAt := time
      startedAt := ""
      completedAt := ""
      updatedAt := time }
    let s := { s with
      workerTasks := s.workerTasks ++ [task]
      workers := updateFirst same (occupyWorker time task.taskId) s.workers }
    ⟨task, pushAuditEvent s ⟨time, "worker_task_leased", assignment.tenantId, assignment.modelId,
      worker.trainerClientId, "Leased worker task " ++ task.taskId ++ " to " ++ worker.workerId⟩,
      true⟩

def taskStatusText : TaskStatus → String
  | .leased => "leased"
  | .running => "running"
  | .completed => "completed"
  | .failed => "failed"
  | .submitted => "submitted"
  | .aggregated => "aggregated"
  | .missed => "missed"

/-- The statuses after which the source stamps `completed_at` and frees the worker. -/
def isFinalReport (status : TaskStatus) : Bool :=
  status == .completed || status == .failed || status == .submitted || status == .aggregated

def reportToWorker (now : String) (task : PersistedWorkerTaskRecord) (w : PersistedWorkerRecord) :
    PersistedWorkerRecord :=
  let w := { w with lastHeartbeatAt := now }
  if task.status = .running then { w with status := .busy, activeTaskId := task.taskId }
  else if task.status = .leased then { w with status := .leased, activeTaskId := task.taskId }
  else if isFinalReport task.status then { w with
    status := .idle
    activeTaskId := if w.activeTaskId = task.taskId then "" else w.activeTaskId }
  else w

/-- `status` is `none` where the source passes the empty string. -/
def updateWorkerTaskStatus (s : StateStore) (workerId taskId : String)
    (status : Option TaskStatus) (detail : String) (progressPercent : ℤ) (now : ℕ) :
    Outcome (Except String Unit) :=
  let time := currentTimestamp now
  match s.workerTasks.find? (fun task => task.taskId == taskId) with
  | none => ⟨.error "worker task not found", s, false⟩
  | some task =>
    if task.workerId ≠ workerId then ⟨.error "task belongs to a different worker", s, false⟩
    else
      let status := status.getD task.status
      let task := { task with
        status := status
        detail := detail
        progressPercent := max 0 (min 100 progressPercent)
        updatedAt := time
        startedAt := if status = .running ∧ task.startedAt = "" then time else task.startedAt
        completedAt := if isFinalReport status ∧ task.completedAt = "" then time
          else task.completedAt }
      let s := { s with
        workerTasks := updateFirst (fun task => task.taskId == taskId) (fun _ => task)
          s.workerTasks
        workers := updateFirst (fun w => w.workerId == workerId) (reportToWorker time task)
          s.workers }
      ⟨.ok (), pushAuditEvent s ⟨time, "worker_task_status", task.tenantId, task.modelId,
        task.trainerClientId, "Worker " ++ workerId ++ " set task " ++ taskId ++ " to " ++
          taskStatusText task.status⟩, true⟩

def recordWorkerHeartbeat (s : StateStore) (workerId activeTaskId detail : String) (now : ℕ) :
    Outcome Bool :=
  let time := currentTimestamp now
  let same := fun w : PersistedWorkerRecord => w.workerId == workerId
  match s.workers.find? same with
  | none => ⟨false, s, false⟩
  | some worker =>
    let s := { s with workers := updateFirst same (fun w =>
      if activeTaskId ≠ "" then
        { w with lastHeartbeatAt := time, activeTaskId := activeTaskId, status := .busy }
      else if w.status ≠ .leased then { w with lastHeartbeatAt := time, status := .idle }
      else { w with lastHeartbeatAt := time }) s.workers }
    let s := if detail = "" then s else pushAuditEvent s ⟨time, "worker_heartbeat",
      worker.tenantId, worker.modelId, worker.trainerClientId,
      "Worker " ++ workerId ++ ": " ++ detail⟩
    ⟨true, s, true⟩

/-- The records of an image which `SaveLocked` wrote, as they are read back. -/
def normalizedRecords (image : StateStore) : StateStore :=
  { image with
    clients := image.clients.map (fun r => { r with
      tenantId := normalizeTenant r.tenantId, modelId := normalizeModel r.modelId })
    models := image.models.map (fun r => { r with
      tenantId := normalizeTenant r.tenantId, modelId := normalizeModel r.modelId })
    datasets := image.datasets.map (fun r => { r with
      tenantId := normalizeTenant r.tenantId, modelId := normalizeModel r.modelId })
    trainingJobs := image.trainingJobs.map (fun r => { r with
      tenantId := normalizeTenant r.tenantId, modelId := normalizeModel r.modelId })
    assignments := image.assignments.map (fun r => { r with
      tenantId := normalizeTenant r.tenantId, modelId := normalizeModel r.modelId })
    workers := image.workers.map (fun r => { r with
      tenantId := normalizeTenant r.tenantId, modelId := normalizeModel r.modelId })
    workerTasks := image.workerTasks.map (fun r => { r with
      tenantId := normalizeTenant r.tenantId, modelId := normalizeModel r.modelId })
    auditEvents := image.auditEvents.map (fun r => { r with
      tenantId := normalizeTenant r.tenantId, modelId := normalizeModel r.modelId }) }

/-- `StateStore::Load`: leases which ran out meanwhile expire. -/
def load (image : StateStore) (now : ℕ) : Outcome Unit :=
  ⟨(), trimAuditEventsLocked (expireAssignmentsLocked (normalizedRecords image)
    (currentTimestamp now)), true⟩

def jobRecords (s : StateStore) :
    List PersistedTrainingJobRecord × List PersistedAssignmentLease :=
  (s.trainingJobs, s.assignments)

@[simp] theorem trimAuditEventsLocked_frame (s : StateStore) :
    (trimAuditEventsLocked s).trainingJobs = s.trainingJobs ∧
    (trimAuditEventsLocked s).assignments = s.assignments ∧
    (trimAuditEventsLocked s).clients = s.clients ∧
    (trimAuditEventsLocked s).models = s.models := by
  unfold trimAuditEventsLocked
  split <;> exact ⟨rfl, rfl, rfl, rfl⟩

@[simp] theorem pushAuditEvent_frame (s : StateStore) (event : PersistedAuditEvent) :
    (pushAuditEvent s event).trainingJobs = s.trainingJobs ∧
    (pushAuditEvent s event).assignments = s.assignments ∧
    (pushAuditEvent s event).clients = s.clients ∧
    (pushAuditEvent s event).models = s.models :=
  trimAuditEventsLocked_frame _

/-- What running out does to one lease. -/
def lapse (now : String) (a : PersistedAssignmentLease) : PersistedAssignmentLease :=
  if hasLapsed now a then
    { a with status := .expired, updatedAt := now, detail := "Lease expired before submission" }
  else a

@[simp] theorem expireAssignmentsLocked_frame (s : StateStore) (now : String) :
    (expireAssignmentsLocked s now).trainingJobs = s.trainingJobs ∧
    (expireAssignmentsLocked s now).assignments = s.assignments.map (lapse now) ∧
    (expireAssignmentsLocked s now).clients = s.clients ∧
    (expireAssignmentsLocked s now).models = s.models := by
  unfold expireAssignmentsLocked trimAuditEventsLocked
  dsimp only
  split
  · exact ⟨rfl, rfl, rfl, rfl⟩
  · split <;> exact ⟨rfl, rfl, rfl, rfl⟩

theorem recordClientRegistration_frame (s : StateStore) (record : PersistedClientRecord)
    (now : ℕ) :
    jobRecords (recordClientRegistration s record now).store = jobRecords s ∧
    (recordClientRegistration s record now).store.models = s.models := ⟨rfl, rfl⟩

theorem updateClientLastRound_frame (s : StateStore) (t m c : String) (r : ℤ) :
    jobRecords (updateClientLastRound s t m c r).store = jobRecords s ∧
    (updateClientLastRound s t m c r).store.models = s.models := ⟨rfl, rfl⟩

theorem recordWeightSubmission_frame (s : StateStore) (t m c : String) (r : ℤ) (now : ℕ) :
    jobRecords (recordWeightSubmission s t m c r now).store = jobRecords s ∧
    (recordWeightSubmission s t m c r now).store.clients = s.clients ∧
    (recordWeightSubmission s t m c r now).store.models = s.models := by
  simp [recordWeightSubmission, jobRecords]

theorem recordAuditEvent_frame (s : StateStore) (event : PersistedAuditEvent) (now : ℕ) :
    jobRecords (recordAuditEvent s event now).store = jobRecords s ∧
    (recordAuditEvent s event now).store.clients = s.clients ∧
    (recordAuditEvent s event now).store.models = s.models := by
  simp [recordAuditEvent, jobRecords]

theorem updateActiveKeyVersion_frame (s : StateStore) (v : ℤ) (now : ℕ) :
    jobRecords (updateActiveKeyVersion s v now).store = jobRecords s ∧
    (updateActiveKeyVersion s v now).store.clients = s.clients ∧
    (updateActiveKeyVersion s v now).store.models = s.models := by
  unfold updateActiveKeyVersion
  split
  · exact ⟨rfl, rfl, rfl⟩
  · simp [jobRecords]

theorem recordAggregatedModel_frame (s : StateStore) (t m : String) (r : ℤ) (path strategy : String)
    (keyVersion clientCount weightDimension : ℤ) (now : ℕ) :
    jobRecords (recordAggregatedModel s t m r path strategy keyVersion clientCount weightDimension
      now).store = jobRecords s ∧
    (recordAggregatedModel s t m r path strategy keyVersion clientCount weightDimension
      now).store.clients = s.clients := by
  simp [recordAggregatedModel, jobRecords]

theorem rollbackModel_frame (s : StateStore) (t m : String) (v : ℤ) (now : ℕ) :
    jobRecords (rollbackModel s t m v now).store = jobRecords s ∧
    (rollbackModel s t m v now).store.clients = s.clients := by
  unfold rollbackModel
  dsimp only
  split
  · exact ⟨rfl, rfl⟩
  · simp [jobRecords]

theorem upsertDataset_frame (s : StateStore) (record : PersistedDatasetRecord) (now : ℕ) :
    jobRecords (upsertDataset s record now).store = jobRecords s ∧
    (upsertDataset s record now).store.clients = s.clients ∧
    (upsertDataset s record now).store.models = s.models := by
  simp [upsertDataset, jobRecords]

theorem createTrainingJob_frame (s : StateStore) (record : PersistedTrainingJobRecord) (now : ℕ) :
    (createTrainingJob s record now).store.clients = s.clients ∧
    (createTrainingJob s record now).store.models = s.models := by
  simp [createTrainingJob]

theorem grantLease_cases (s : StateStore) (job : PersistedTrainingJobRecord) (t m c : String)
    (v n ttl : ℤ) (now : ℕ) :
    (grantLease s job t m c v n ttl now).store = s ∨
    ∃ event, (grantLease s job t m c v n ttl now).store = pushAuditEvent
      { s with assignments := s.assignments ++ [newLease job t m c v ttl now] } event := by
  unfold grantLease
  dsimp only
  split
  · exact .inl rfl
  · split
    · exact .inl rfl
    · exact .inr ⟨_, rfl⟩

theorem leaseTrainingAssignment_frame (s : StateStore) (t m c : String) (v n ttl : ℤ) (now : ℕ) :
    (leaseTrainingAssignment s t m c v n ttl now).store.clients = s.clients ∧
    (leaseTrainingAssignment s t m c v n ttl now).store.models = s.models := by
  unfold leaseTrainingAssignment
  dsimp only
  split
  · simp
  split
  · simp [updateActiveTrainingJob]
  · rcases grantLease_cases (updateActiveTrainingJob (expireAssignmentsLocked s
      (currentTimestamp now)) t m (fun _ => runningJob (currentTimestamp now) _)) _ t m c v n ttl
      now with h | ⟨event, h⟩
    · rw [h]; simp [updateActiveTrainingJob]
    · rw [h]; simp [updateActiveTrainingJob]

theorem validateTrainingAssignmentSubmission_frame (s : StateStore) (t m c jobId assignmentId : String)
    (r v : ℤ) (now : ℕ) :
    (validateTrainingAssignmentSubmission s t m c jobId assignmentId r v now).store.clients =
      s.clients ∧
    (validateTrainingAssignmentSubmission s t m c jobId assignmentId r v now).store.models =
      s.models := by
  unfold validateTrainingAssignmentSubmission
  dsimp only
  split <;> simp [updateAssignment]

theorem acceptTrainingAssignmentSubmission_frame (s : StateStore) (t m c jobId assignmentId : String)
    (r v : ℤ) (now : ℕ) :
    (acceptTrainingAssignmentSubmission s t m c jobId assignmentId r v now).store.clients =
      s.clients ∧
    (acceptTrainingAssignmentSubmission s t m c jobId assignmentId r v now).store.models =
      s.models := by
  unfold acceptTrainingAssignmentSubmission
  dsimp only
  split <;> simp [updateAssignment]

theorem advanceTrainingJobRound_frame (s : StateStore) (t m : String) (r v : ℤ) (now : ℕ) :
    (advanceTrainingJobRound s t m r v now).store.clients = s.clients ∧
    (advanceTrainingJobRound s t m r v now).store.models = s.models := by
  unfold advanceTrainingJobRound
  dsimp only
  split
  · exact ⟨rfl, rfl⟩
  · simp [updateActiveTrainingJob]

theorem upsertWorker_frame (s : StateStore) (record : PersistedWorkerRecord) (now : ℕ) :
    jobRecords (upsertWorker s record now).store = jobRecords s ∧
    (upsertWorker s record now).store.clients = s.clients ∧
    (upsertWorker s record now).store.models = s.models := by
  simp [upsertWorker, jobRecords]

theorem leaseWorkerTask_frame (s : StateStore) (worker : PersistedWorkerRecord)
    (assignment : PersistedAssignmentLease) (job : PersistedTrainingJobRecord)
    (dataset : PersistedDatasetRecord) (now : ℕ) :
    jobRecords (leaseWorkerTask s worker assignment job dataset now).store = jobRecords s ∧
    (leaseWorkerTask s worker assignment job dataset now).store.clients = s.clients ∧
    (leaseWorkerTask s worker assignment job dataset now).store.models = s.models := by
  unfold leaseWorkerTask
  dsimp only
  split
  · exact ⟨rfl, rfl, rfl⟩
  · simp [jobRecords]

theorem updateWorkerTaskStatus_frame (s : StateStore) (w t : String) (status : Option TaskStatus)
    (detail : String) (progress : ℤ) (now : ℕ) :
    jobRecords (updateWorkerTaskStatus s w t status detail progress now).store = jobRecords s ∧
    (updateWorkerTaskStatus s w t status detail progress now).store.clients = s.clients ∧
    (updateWorkerTaskStatus s w t status detail progress now).store.models = s.models := by
  unfold updateWorkerTaskStatus
  dsimp only
  split
  · exact ⟨rfl, rfl, rfl⟩
  split
  · exact ⟨rfl, rfl, rfl⟩
  · simp [jobRecords]

theorem recordWorkerHeartbeat_frame (s : StateStore) (w t detail : String) (now : ℕ) :
    jobRecords (recordWorkerHeartbeat s w t detail now).store = jobRecords s ∧
    (recordWorkerHeartbeat s w t detail now).store.clients = s.clients ∧
    (recordWorkerHeartbeat s w t detail now).store.models = s.models := by
  unfold recordWorkerHeartbeat
  dsimp only
  split
  · exact ⟨rfl, rfl, rfl⟩
  · split
    · exact ⟨rfl, rfl, rfl⟩
    · simp [jobRecords]

theorem validate_jobs (s : StateStore) (t m c jobId id : String) (r v : ℤ) (now : ℕ) :
    (validateTrainingAssignmentSubmission s t m c jobId id r v now).store.trainingJobs =
      s.trainingJobs := by
  have hjobs := (expireAssignmentsLocked_frame s (currentTimestamp now)).1
  unfold validateTrainingAssignmentSubmission
  dsimp only
  split
  · exact hjobs
  · exact hjobs
  · exact hjobs
  · exact hjobs

theorem accept_jobs (s : StateStore) (t m c jobId id : String) (r v : ℤ) (now : ℕ) :
    (acceptTrainingAssignmentSubmission s t m c jobId id r v now).store.trainingJobs =
      s.trainingJobs := by
  have hjobs := (expireAssignmentsLocked_frame s (currentTimestamp now)).1
  unfold acceptTrainingAssignmentSubmission
  dsimp only
  split
  · exact hjobs
  · exact hjobs
  · exact hjobs
  · rw [(pushAuditEvent_frame _ _).1]
    exact hjobs

end PqFl.StateStore
