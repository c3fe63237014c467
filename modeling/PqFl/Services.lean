import PqFl.ClientRegistry
import PqFl.WeightBuffer

/-!
# The requests and their steps

The handlers of `federated_service.cpp`, `admin_service.cpp` and
`worker_service.cpp`. A handler is cut where it calls a method of a shared
object, since the objects have one mutex each and handlers of different
services run at the same time. A handler in progress is the request with the
point which it has reached; the first call is part of the step that starts it.
-/

set_option autoImplicit false

namespace PqFl.Services
open PqFl.Identifiers PqFl.StoreRecords PqFl.StateStore PqFl.ClientRegistry PqFl.Crypto
open PqFl.Aggregation PqFl.Buffer

variable {F : Type} [FloatArith F]

structure Config (F : Type) extends AggregationConfig F where
  requiredClients : ℤ
  targetRounds : ℤ
  defaultAssignmentTtlSeconds : ℤ
  auditEventRetention : ℕ
  adminPeerIdentities : List String
  workerPeerIdentities : List String

structure Deployment (F : Type) where
  config : Config F
  primitives : Primitives

/-- The objects of the process, and what it has on disk. -/
structure World (F : Type) where
  registry : Registry
  store : StateStore
  buffer : WeightBuffer F
  crypto : CryptoEngine
  disk : StateStore
  files : CheckpointFiles
  keyFiles : KeyFiles

def World.after {α : Type} (w : World F) (o : Outcome α) : World F :=
  { w with store := o.store, disk := if o.save then o.store else w.disk }

/-- What a step takes from outside: the clock and the random draws. -/
structure Oracle (F : Type) where
  now : ℕ
  draw : Draw F

structure RegisterClientRequest where
  tenantId : String
  modelId : String
  clientId : String
  localDatasetSize : ℤ
  hardwareInfo : String
  datasetFingerprint : String
  deriving DecidableEq

structure RegisterClientResponse where
  accepted : Bool := false
  assignedId : String := ""
  currentRound : ℤ := -1
  activeModelVersion : ℤ := 0
  deriving DecidableEq

structure TrainingConfigRequest where
  tenantId : String
  modelId : String
  clientId : String
  deriving DecidableEq

/-- The part of the response which does not repeat the configuration. -/
structure TrainingConfigResponse where
  targetRounds : ℤ
  requiredClients : ℤ
  activeModelVersion : ℤ
  activeKeyVersion : ℤ
  assignmentReady : Bool
  assignmentMessage : String
  lease : Option LeasedAssignment
  deriving DecidableEq

structure SubmitWeightsRequest where
  tenantId : String
  modelId : String
  clientId : String
  roundIndex : ℤ
  localDatasetSize : ℤ
  encryptedWeights : Bytes
  iv : Bytes
  authTag : Bytes
  clientNonce : Bytes
  kemCiphertext : Bytes
  keyAgreement : String
  baseModelVersion : ℤ
  jobId : String
  assignmentId : String
  deriving DecidableEq

structure SubmitWeightsResponse where
  accepted : Bool := false
  message : String := ""
  clientsReceived : ℕ := 0
  clientsRequired : ℤ := 0
  aggregationTriggered : Bool := false
  activeModelVersion : ℤ := 0
  activeKeyVersion : ℤ := 0
  deriving DecidableEq

structure CreateTrainingJobRequest where
  tenantId : String
  modelId : String
  datasetId : String
  targetRounds : ℤ
  plannedClients : ℤ
  minClientsPerRound : ℤ
  assignmentTtlSeconds : ℤ
  notes : String
  deriving DecidableEq

structure RollbackModelRequest where
  tenantId : String
  modelId : String
  targetVersion : ℤ
  deriving DecidableEq

structure RollbackModelResponse where
  success : Bool
  message : String
  activeModel : Option PersistedModelRecord := none
  deriving DecidableEq

structure WorkerRegistration where
  workerId : String
  trainerClientId : String
  tenantId : String
  modelId : String
  hostname : String
  launcher : String
  maxParallelTasks : ℤ
  labels : List String
  advertisedDatasetSize : ℤ
  deriving DecidableEq

structure WorkerTaskLeaseRequest where
  workerId : String
  tenantId : String
  modelId : String
  deriving DecidableEq

/-- The records from which the source fills the response in. -/
structure WorkerTaskLease where
  worker : PersistedWorkerRecord
  task : PersistedWorkerTaskRecord
  lease : LeasedAssignment
  activeModelVersion : ℤ
  checkpointPath : String
  deriving DecidableEq

structure WorkerTaskStatusUpdate where
  workerId : String
  taskId : String
  status : TaskStatus
  detail : String
  progressPercent : ℤ
  deriving DecidableEq

structure WorkerHeartbeat where
  workerId : String
  activeTaskId : String
  detail : String
  deriving DecidableEq

def rejectsRegisterClient (q : RegisterClientRequest) (peer : Peer) : Bool :=
  validateFederatedRequestIds q.tenantId q.modelId q.clientId != "" || !peer.authenticated ||
    normalizePeerIdentity peer.identity == ""

def clientInfo (q : RegisterClientRequest) (peer : Peer) (registeredAt : String) : ClientInfo where
  tenantId := normalizeTenant q.tenantId
  modelId := normalizeModel q.modelId
  clientId := q.clientId
  peerIdentity := normalizePeerIdentity peer.identity
  localDatasetSize := max 1 q.localDatasetSize
  hardwareInfo := q.hardwareInfo
  datasetFingerprint := q.datasetFingerprint
  registeredAt := registeredAt

/-- The record which is handed to the store for a registry entry. -/
def clientRecord (info : ClientInfo) : PersistedClientRecord where
  tenantId := info.tenantId
  modelId := info.modelId
  clientId := info.clientId
  peerIdentity := info.peerIdentity
  localDatasetSize := info.localDatasetSize
  hardwareInfo := info.hardwareInfo
  datasetFingerprint := info.datasetFingerprint
  lastActiveRound := info.lastActiveRound
  registeredAt := info.registeredAt

inductive RegisterClientPoint where
  | latestModel (accepted : Bool)
  | modelVersion (accepted : Bool) (round : ℤ)
  | record (response : RegisterClientResponse)
  | audit (response : RegisterClientResponse)
  deriving DecidableEq

def stepRegisterClient (w : World F) (info : ClientInfo) (now : ℕ) :
    RegisterClientPoint → World F × Option RegisterClientPoint
  | .latestModel accepted =>
    (w, some (.modelVersion accepted (getLatestGlobalModel w.buffer info.tenantId info.modelId).round))
  | .modelVersion accepted round =>
    (w, some (.record ⟨accepted, info.clientId, round,
      getActiveModelVersion w.store info.tenantId info.modelId⟩))
  | .record response =>
    (w.after (recordClientRegistration w.store (clientRecord info) now), some (.audit response))
  | .audit response =>
    (w.after (recordAuditEvent w.store ⟨Timestamps.currentTimestamp now,
      if response.accepted then "client_registered" else "client_register_duplicate",
      info.tenantId, info.modelId, info.clientId,
      "Dataset size " ++ toString info.localDatasetSize⟩ now), none)

def rejectsTrainingConfig (g : Registry) (q : TrainingConfigRequest) (peer : Peer) : Bool :=
  validateFederatedRequestIds q.tenantId q.modelId q.clientId != "" || !peer.authenticated ||
    !isRegisteredForPeer g (normalizeTenant q.tenantId) (normalizeModel q.modelId) q.clientId
      (normalizePeerIdentity peer.identity)

inductive TrainingConfigPoint where
  | modelVersion
  | keyVersion (activeModelVersion : ℤ)
  | lease (activeModelVersion activeKeyVersion : ℤ)
  | respond (response : TrainingConfigResponse)
  deriving DecidableEq

def trainingConfig (cfg : Config F) (activeModelVersion activeKeyVersion : ℤ) :
    Option LeasedAssignment → TrainingConfigResponse
  | none => ⟨cfg.targetRounds, cfg.requiredClients, activeModelVersion, activeKeyVersion, false,
      "No active scheduled training job; ad-hoc participation only", none⟩
  | some lease => ⟨
      if lease.job.targetRounds > 0 then lease.job.targetRounds else cfg.targetRounds,
      if lease.job.minClientsPerRound > 0 then lease.job.minClientsPerRound
        else cfg.requiredClients,
      activeModelVersion, activeKeyVersion, true,
      "Training assignment leased for this client", some lease⟩

def stepTrainingConfig (cfg : Config F) (w : World F) (q : TrainingConfigRequest) (now : ℕ) :
    TrainingConfigPoint → World F × Option TrainingConfigPoint
  | .modelVersion => (w, some (.keyVersion (getActiveModelVersion w.store
      (normalizeTenant q.tenantId) (normalizeModel q.modelId))))
  | .keyVersion modelVersion => (w, some (.lease modelVersion w.crypto.activeKeyVersion))
  | .lease modelVersion keyVersion =>
    let leased := leaseTrainingAssignment w.store (normalizeTenant q.tenantId)
      (normalizeModel q.modelId) q.clientId modelVersion cfg.requiredClients
      cfg.defaultAssignmentTtlSeconds now
    (w.after leased, some (.respond (trainingConfig cfg modelVersion keyVersion leased.value)))
  | .respond _ => (w, none)

/-- The checks of the request alone, empty when it passes them. -/
def checkSubmitWeights (q : SubmitWeightsRequest) (peer : Peer) : String :=
  let error := validateFederatedRequestIds q.tenantId q.modelId q.clientId
  if error ≠ "" then error
  else if q.roundIndex ≤ 0 then "round_index must be >= 1"
  else if q.localDatasetSize ≤ 0 then "local_dataset_size must be >= 1"
  else if q.encryptedWeights = [] then "encrypted_weights must not be empty"
  else if q.iv.length ≠ 12 ∨ q.authTag.length ≠ 16 then "iv/auth_tag length mismatch"
  else if q.keyAgreement = "ml-kem-1024" ∧ q.kemCiphertext = [] then
    "ML-KEM-1024 key agreement requires kem_ciphertext"
  else if !peer.authenticated then "Authenticated client certificate required"
  else ""

def deriveSubmitKey (P : Primitives) (e : CryptoEngine) (q : SubmitWeightsRequest) (peer : Peer) :
    Except String Key :=
  let contextParts := [utf8 peer.identity, utf8 (normalizeTenant q.tenantId),
    utf8 (normalizeModel q.modelId), utf8 q.clientId, utf8 (toString q.roundIndex),
    utf8 "submit"] ++ (if q.clientNonce = [] then [] else [q.clientNonce])
  if q.kemCiphertext = [] then deriveSessionKey P e contextParts
  else deriveKemSessionKey P e contextParts q.kemCiphertext

def decryptSubmission (P : Primitives) (e : CryptoEngine) (q : SubmitWeightsRequest) (peer : Peer) :
    Except String (List F) :=
  let opened := (deriveSubmitKey P e q peer).bind (fun sessionKey =>
    decryptWithKey P sessionKey q.encryptedWeights (Block.read 12 q.iv) (Block.read 16 q.authTag))
  match opened with
  | .error what => .error ("Decryption failed: " ++ what)
  | .ok plaintext =>
    if plaintext.length % 4 ≠ 0 then .error "Invalid weight dimensions"
    else .ok (bytesFloats plaintext)

/-- `static_cast<size_t>` of an `int`. -/
def castSize (value : ℤ) : ℕ := (value % 2^64).toNat

def requiredClients (cfg : Config F) (job : Option PersistedTrainingJobRecord) : ℕ :=
  match job with
  | none => castSize cfg.requiredClients
  | some job => castSize (if job.minClientsPerRound > 0 then job.minClientsPerRound
      else cfg.requiredClients)

def submission (cfg : Config F) (q : SubmitWeightsRequest)
    (job : Option PersistedTrainingJobRecord) (weights : List F) : Submission F where
  tenantId := normalizeTenant q.tenantId
  modelId := normalizeModel q.modelId
  clientId := q.clientId
  round := q.roundIndex
  datasetSize := max 1 q.localDatasetSize
  weights := weights
  requiredClients := requiredClients cfg job

/-- The job is what the handler read as the active job of the scope. -/
inductive SubmitPoint (F : Type) where
  | modelVersion
  | activeJob (currentModelVersion : ℤ)
  | validate (currentModelVersion : ℤ) (job : PersistedTrainingJobRecord)
  | roundCheck (currentModelVersion : ℤ) (job : Option PersistedTrainingJobRecord)
  | duplicateCheck (currentModelVersion : ℤ) (job : Option PersistedTrainingJobRecord)
  | decrypt (job : Option PersistedTrainingJobRecord)
  | updateClient (job : Option PersistedTrainingJobRecord) (weights : List F)
  | recordSubmission (job : Option PersistedTrainingJobRecord) (weights : List F)
  | add (job : Option PersistedTrainingJobRecord) (weights : List F)
  | keyVersion (job : Option PersistedTrainingJobRecord) (p : Prepared F)
  | record (job : Option PersistedTrainingJobRecord) (p : Prepared F) (keyVersion : ℤ)
  | publish (job : Option PersistedTrainingJobRecord) (p : Prepared F) (modelVersion : ℤ)
  | accept (job : PersistedTrainingJobRecord) (result : AggregationAttemptResult)
  | advance (job : PersistedTrainingJobRecord) (result : AggregationAttemptResult)
  | respond (response : SubmitWeightsResponse) (countClients : Bool)

def SubmitPoint.locksBuffer : SubmitPoint F → Bool
  | .keyVersion _ _ => true
  | .record _ _ _ => true
  | .publish _ _ _ => true
  | _ => false

/-- A refusal before the submission reaches the buffer. -/
def SubmitPoint.refuse (message : String) (activeModelVersion : ℤ) : SubmitPoint F :=
  .respond { message := message, activeModelVersion := activeModelVersion } false

/-- The response after the attempt; only the verdict and the text depend on the lease. -/
def attemptResponse (cfg : Config F) (job : Option PersistedTrainingJobRecord)
    (result : AggregationAttemptResult) (accepted : Bool) (message : String) :
    SubmitWeightsResponse where
  accepted := accepted
  message := message
  clientsRequired := Int.bmod (requiredClients cfg job) (2^32)
  aggregationTriggered := accepted && result.aggregated
  activeModelVersion := result.modelVersion

/-- Where the handler goes after the attempt. -/
def afterAttempt (cfg : Config F) (job : Option PersistedTrainingJobRecord)
    (result : AggregationAttemptResult) : SubmitPoint F :=
  if result.accepted then
    match job with
    | none => .respond (attemptResponse cfg job result true result.message) true
    | some job => .accept job result
  else .respond (attemptResponse cfg job result false result.message) true

/-- The call which starts the handler once the request passed its checks. -/
def submitIsRegistered (g : Registry) (q : SubmitWeightsRequest) (peer : Peer) : Bool :=
  isRegisteredForPeer g (normalizeTenant q.tenantId) (normalizeModel q.modelId) q.clientId
    (normalizePeerIdentity peer.identity)

def startSubmitWeights (g : Registry) (q : SubmitWeightsRequest) (peer : Peer) : SubmitPoint F :=
  if checkSubmitWeights q peer ≠ "" then .refuse (checkSubmitWeights q peer) 0
  else if submitIsRegistered g q peer then .modelVersion
  else .refuse
    "Client must register with the same certificate identity before submitting weights" 0

/-- One step of the handler; `inr` is the response it ends with. -/
def stepSubmitWeights (d : Deployment F) (w : World F) (q : SubmitWeightsRequest) (peer : Peer)
    (o : Oracle F) : SubmitPoint F → World F × (SubmitPoint F ⊕ SubmitWeightsResponse)
  | .modelVersion =>
    let current := getActiveModelVersion w.store (normalizeTenant q.tenantId)
      (normalizeModel q.modelId)
    (w, .inl (if q.baseModelVersion > 0 ∧ current > 0 ∧ q.baseModelVersion ≠ current then
        .refuse "Submission is based on a stale global model version" current
      else .activeJob current))
  | .activeJob current =>
    match getActiveTrainingJob w.store (normalizeTenant q.tenantId) (normalizeModel q.modelId) with
    | none => (w, .inl (.roundCheck current none))
    | some job => (w, .inl (.validate current job))
  | .validate current job =>
    let validated := validateTrainingAssignmentSubmission w.store (normalizeTenant q.tenantId)
      (normalizeModel q.modelId) q.clientId q.jobId q.assignmentId q.roundIndex q.baseModelVersion
      o.now
    (w.after validated, .inl (match validated.value with
      | .error message => .refuse message current
      | .ok () => .roundCheck current (some job)))
  | .roundCheck current job =>
    (w, .inl (if isRoundCompleted w.buffer (normalizeTenant q.tenantId) (normalizeModel q.modelId)
        q.roundIndex then .refuse "Round already aggregated" current
      else .duplicateCheck current job))
  | .duplicateCheck current job =>
    (w, .inl (if hasClientSubmission w.buffer (normalizeTenant q.tenantId)
        (normalizeModel q.modelId) q.roundIndex q.clientId then
        .refuse "Client already submitted weights for this round" current
      else .decrypt job))
  | .decrypt job =>
    -- the keys that opening a submission takes never change while the server runs
    match decryptSubmission d.primitives w.crypto q peer with
    | .error message => (w, .inl (.refuse message 0))
    | .ok weights =>
      let registry := updateLastActiveRound w.registry (normalizeTenant q.tenantId)
        (normalizeModel q.modelId) q.clientId q.roundIndex
      ({ w with registry := registry }, .inl (.updateClient job weights))
  | .updateClient job weights =>
    (w.after (updateClientLastRound w.store (normalizeTenant q.tenantId)
      (normalizeModel q.modelId) q.clientId q.roundIndex), .inl (.recordSubmission job weights))
  | .recordSubmission job weights =>
    (w.after (recordWeightSubmission w.store (normalizeTenant q.tenantId)
      (normalizeModel q.modelId) q.clientId q.roundIndex o.now), .inl (.add job weights))
  | .add job weights =>
    let (buffer, files, attempt) := addWeight d.primitives d.config.toAggregationConfig w.crypto
      w.files w.buffer (submission d.config q job weights) o.draw
    ({ w with buffer := buffer, files := files }, .inl (match attempt with
      | .returned result => afterAttempt d.config job result
      | .prepared p => .keyVersion job p))
  | .keyVersion job p => (w, .inl (.record job p w.crypto.activeKeyVersion))
  | .record job p keyVersion =>
    let recorded := recordAggregatedModel w.store (normalizeTenant q.tenantId)
      (normalizeModel q.modelId) q.roundIndex p.checkpointPath d.config.aggregationStrategy
      keyVersion p.clientCount p.result.length o.now
    (w.after recorded, .inl (.publish job p recorded.value))
  | .publish job p modelVersion =>
    let (buffer, result) := publish w.buffer (submission d.config q job []) p.result modelVersion
    ({ w with buffer := buffer }, .inl (afterAttempt d.config job result))
  | .accept job result =>
    let accepted := acceptTrainingAssignmentSubmission w.store (normalizeTenant q.tenantId)
      (normalizeModel q.modelId) q.clientId q.jobId q.assignmentId q.roundIndex q.baseModelVersion
      o.now
    (w.after accepted, .inl (match accepted.value with
      | .error message => .respond (attemptResponse d.config (some job) result false message) true
      | .ok () =>
        if result.aggregated then .advance job result
        else .respond (attemptResponse d.config (some job) result true result.message) true))
  | .advance job result =>
    (w.after (advanceTrainingJobRound w.store (normalizeTenant q.tenantId)
      (normalizeModel q.modelId) q.roundIndex result.modelVersion o.now),
      .inl (.respond (attemptResponse d.config (some job) result true result.message) true))
  | .respond response countClients =>
    (w, .inr { response with
      clientsReceived := if countClients then getNumClients w.buffer (normalizeTenant q.tenantId)
        (normalizeModel q.modelId) q.roundIndex else 0
      activeKeyVersion := w.crypto.activeKeyVersion })

def validateAdminScope (tenantId modelId : String) : String :=
  let error := validateIdentifier tenantId "tenant_id" true
  if error ≠ "" then error else validateIdentifier modelId "model_id" true

def checkUpsertDataset (q : PersistedDatasetRecord) : String :=
  let scopeError := validateAdminScope q.tenantId q.modelId
  let datasetError := validateIdentifier q.datasetId "dataset_id" false
  if scopeError ≠ "" then scopeError
  else if datasetError ≠ "" then datasetError
  else if q.storageUri = "" then "storage_uri is required"
  else if q.format = "" then "format is required"
  else if q.sampleCount < 0 ∨ q.shardCount < 0 then "sample_count and shard_count must be >= 0"
  else ""

def checkCreateTrainingJob (q : CreateTrainingJobRequest) : String :=
  let scopeError := validateAdminScope q.tenantId q.modelId
  let datasetError := validateIdentifier q.datasetId "dataset_id" false
  if scopeError ≠ "" then scopeError
  else if datasetError ≠ "" then datasetError
  else if q.targetRounds ≤ 0 then "target_rounds must be >= 1"
  else if q.plannedClients ≤ 0 ∨ q.minClientsPerRound ≤ 0 then
    "planned_clients and min_clients_per_round must be >= 1"
  else if q.plannedClients < q.minClientsPerRound then
    "planned_clients must be >= min_clients_per_round"
  else if q.assignmentTtlSeconds < 30 then "assignment_ttl_seconds must be >= 30"
  else ""

def requestedJob (q : CreateTrainingJobRequest) : PersistedTrainingJobRecord where
  jobId := ""
  tenantId := q.tenantId
  modelId := q.modelId
  datasetId := q.datasetId
  targetRounds := max 1 q.targetRounds
  plannedClients := max 1 q.plannedClients
  minClientsPerRound := max 1 q.minClientsPerRound
  assignmentTtlSeconds := max 30 q.assignmentTtlSeconds
  status := .planned
  currentRound := 1
  completedRounds := 0
  activeModelVersion := 0
  createdAt := ""
  activatedAt := ""
  notes := q.notes

def checkRollbackModel (q : RollbackModelRequest) : String :=
  let error := validateAdminScope q.tenantId q.modelId
  if error ≠ "" then error
  else if q.targetVersion ≤ 0 then "target_version must be >= 1"
  else ""

/-- The plaintext of a checkpoint as weights, or the message of the failure. -/
def readCheckpoint (P : Primitives) (w : World F) (path : String) : Except String (List F) :=
  match readFile w.files path with
  | none => .error "Checkpoint file not found for requested rollback"
  | some blob =>
    match decryptBlob P w.crypto blob with
    | .error what => .error ("Failed to decrypt rollback checkpoint: " ++ what)
    | .ok plaintext =>
      if plaintext.length % 4 ≠ 0 then .error "Rollback checkpoint had invalid tensor data"
      else .ok (bytesFloats plaintext)

inductive RollbackPoint (F : Type) where
  | readCheckpoint
  | restore (weights : List F)

/-- The identifiers a registration goes by. -/
def workerId (q : WorkerRegistration) : String :=
  if q.workerId = "" then q.trainerClientId ++ "-worker" else q.workerId

def trainerClientId (q : WorkerRegistration) : String :=
  if q.trainerClientId = "" then workerId q ++ "-trainer" else q.trainerClientId

def checkRegisterWorker (q : WorkerRegistration) : String :=
  let tenantError := validateIdentifier q.tenantId "tenant_id" true
  let modelError := validateIdentifier q.modelId "model_id" true
  let workerError := validateIdentifier (workerId q) "worker_id" false
  if tenantError ≠ "" then tenantError
  else if modelError ≠ "" then modelError
  else if workerError ≠ "" then workerError
  else validateIdentifier (trainerClientId q) "trainer_client_id" false

def workerRecord (q : WorkerRegistration) (now : String) : PersistedWorkerRecord where
  workerId := workerId q
  trainerClientId := trainerClientId q
  tenantId := normalizeTenant q.tenantId
  modelId := normalizeModel q.modelId
  hostname := q.hostname
  launcher := q.launcher
  maxParallelTasks := max 1 q.maxParallelTasks
  labels := q.labels
  status := .idle
  registeredAt := ""
  lastHeartbeatAt := now
  activeTaskId := ""

/-- The trainer of a worker as a client. -/
def trainerInfo (q : WorkerRegistration) (peer : Peer) (registeredAt : String) : ClientInfo where
  tenantId := normalizeTenant q.tenantId
  modelId := normalizeModel q.modelId
  clientId := trainerClientId q
  peerIdentity := normalizePeerIdentity peer.identity
  localDatasetSize := max 1 q.advertisedDatasetSize
  hardwareInfo := q.hostname ++ " via " ++ q.launcher
  datasetFingerprint := "worker-sidecar"
  registeredAt := registeredAt

inductive RegisterWorkerPoint where
  | isRegistered
  | register
  | bind
  | record (registeredAt : String)
  deriving DecidableEq

def stepRegisterWorker (w : World F) (q : WorkerRegistration) (peer : Peer) (now : ℕ) :
    RegisterWorkerPoint → World F × Option RegisterWorkerPoint
  | .isRegistered =>
    (w, some (if isRegistered w.registry (normalizeTenant q.tenantId) (normalizeModel q.modelId)
      (trainerClientId q) then .bind else .register))
  | .register =>
    let info := trainerInfo q peer (Timestamps.currentTimestamp now)
    ({ w with registry := (register w.registry info).2 }, some (.record info.registeredAt))
  | .bind =>
    let bound := bindPeerIdentityIfMissing w.registry (normalizeTenant q.tenantId)
      (normalizeModel q.modelId) (trainerClientId q) (normalizePeerIdentity peer.identity)
    ({ w with registry := bound.2 },
      if bound.1 then some (.record (Timestamps.currentTimestamp now)) else none)
  | .record registeredAt =>
    (w.after (recordClientRegistration w.store (clientRecord (trainerInfo q peer registeredAt))
      now), none)

inductive WorkerLeasePoint where
  | modelVersion
  | lease (activeModelVersion : ℤ)
  | leaseTask (activeModelVersion : ℤ) (lease : LeasedAssignment)
  | modelRecord (activeModelVersion : ℤ) (lease : LeasedAssignment)
      (task : PersistedWorkerTaskRecord)
  | respond (response : WorkerTaskLease)
  deriving DecidableEq

def leaseTenant (q : WorkerTaskLeaseRequest) (worker : PersistedWorkerRecord) : String :=
  normalizeTenant (if q.tenantId = "" then worker.tenantId else q.tenantId)

def leaseModel (q : WorkerTaskLeaseRequest) (worker : PersistedWorkerRecord) : String :=
  normalizeModel (if q.modelId = "" then worker.modelId else q.modelId)

def stepWorkerLease (cfg : Config F) (w : World F) (q : WorkerTaskLeaseRequest)
    (worker : PersistedWorkerRecord) (now : ℕ) :
    WorkerLeasePoint → World F × Option WorkerLeasePoint
  | .modelVersion =>
    (w, some (.lease (getActiveModelVersion w.store (leaseTenant q worker) (leaseModel q worker))))
  | .lease modelVersion =>
    let leased := leaseTrainingAssignment w.store (leaseTenant q worker) (leaseModel q worker)
      worker.trainerClientId modelVersion cfg.requiredClients cfg.defaultAssignmentTtlSeconds now
    (w.after leased, leased.value.map (.leaseTask modelVersion))
  | .leaseTask modelVersion lease =>
    let task := leaseWorkerTask w.store worker lease.assignment lease.job lease.dataset now
    (w.after task, some (.modelRecord modelVersion lease task.value))
  | .modelRecord modelVersion lease task =>
    (w, some (.respond (match getActiveModelRecord w.store (leaseTenant q worker)
        (leaseModel q worker) with
      | some model => ⟨worker, task, lease, model.version, model.checkpointPath⟩
      | none => ⟨worker, task, lease, modelVersion, ""⟩)))
  | .respond _ => (w, none)

/-- `IsAllowedTaskStatus`; a missed task is only ever set by the store. -/
def isAllowedTaskStatus (status : TaskStatus) : Bool := status != .missed

end PqFl.Services
