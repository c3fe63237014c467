import PqFl.Runs
import PqFl.Services

/-!
# The server

The steps of one server process and its restarts. The federated service runs
one handler at a time, under `proceed_mutex_`; the handlers of the admin and
the worker service run beside it and beside each other. A step starts a
handler, takes a handler in progress to its next call, or restarts the process
from what is on disk. The clock may read anything at any step.

The last five fields of a server are history: they are written for the
statements about runs and no step reads them.
-/

set_option autoImplicit false

namespace PqFl.Process
open PqFl.Identifiers PqFl.StoreRecords PqFl.StateStore PqFl.ClientRegistry PqFl.Crypto
open PqFl.Aggregation PqFl.Buffer PqFl.Services

variable {F : Type}

inductive FederatedCall (F : Type) where
  | registerClient (info : ClientInfo) (p : RegisterClientPoint)
  | trainingConfig (q : TrainingConfigRequest) (p : TrainingConfigPoint)
  | submitWeights (q : SubmitWeightsRequest) (peer : Peer) (serial : ℕ) (p : SubmitPoint F)

inductive Call (F : Type) where
  | registerWorker (q : WorkerRegistration) (peer : Peer) (p : RegisterWorkerPoint)
  | leaseTrainingTask (q : WorkerTaskLeaseRequest) (worker : PersistedWorkerRecord)
      (p : WorkerLeasePoint)
  | rollbackModel (target : PersistedModelRecord) (p : RollbackPoint F)
  | rotateAtRestKey (keyVersion : ℤ)

/-- Which request a pending submission came with, and the job of the lease
that the request named if it was checked against an active job. -/
structure Origin where
  serial : ℕ
  leaseJob : Option String
  deriving DecidableEq

inductive Event (F : Type) where
  | passed (tenantId modelId clientId identity : String)
  | refusedCompleted (job : Option String)
  | refusedDuplicate (job : Option String) (origin : Option Origin)
  | aggregated (tenantId modelId : String) (round : ℤ)
      (contributors : List (String × Option Origin)) (serial : ℕ) (activeJob : Option String)
  | accepted (serial : ℕ) (round : ℤ) (lease : Option PersistedAssignmentLease)
  | advanced (serial : ℕ) (round : ℤ) (job : Option String)
  | answered (serial : ℕ) (tenantId modelId clientId : String) (round : ℤ)
      (response : SubmitWeightsResponse)
  | recorded (tenantId modelId : String) (round version : ℤ) (weights : List F)
  | restored (tenantId modelId : String) (version : ℤ) (weights : List F)

structure Server (F : Type) where
  world : World F
  federated : Option (FederatedCall F)
  calls : List (Call F)
  served : ℕ
  origin : String → String → Option Origin
  boot : List PersistedModelRecord
  history : List (Event F)
  past : List (Event F)

def contributors (s : Server F) (key : String) : List (String × Option Origin) :=
  (submissions s.world.buffer key).keys.map (fun clientId => (clientId, s.origin key clientId))

/-- No request is in progress. -/
def Quiet (s : Server F) : Prop := s.federated = none ∧ s.calls = []

theorem quiet_of_isQuiet {s : Server F} (h : (s.federated.isNone && s.calls.isEmpty) = true) :
    Quiet s := by
  simpa [Quiet] using h

variable [FloatArith F]

/-- What has happened in this process and in the ones before it. -/
def Server.events (s : Server F) : List (Event F) := s.past ++ s.history

/-- What a start of the process draws. -/
structure Start where
  now : ℕ
  freshKey : Key
  freshPayload : Key
  kemSecretKey : Bytes

inductive Action (F : Type) where
  | registerClient (q : RegisterClientRequest) (peer : Peer) (now : ℕ)
  | getTrainingConfig (q : TrainingConfigRequest) (peer : Peer)
  | submitWeights (q : SubmitWeightsRequest) (peer : Peer)
  | proceed (o : Oracle F)
  | registerWorker (q : WorkerRegistration) (peer : Peer) (now : ℕ)
  | leaseTrainingTask (q : WorkerTaskLeaseRequest) (peer : Peer)
  | reportTaskStatus (q : WorkerTaskStatusUpdate) (peer : Peer) (now : ℕ)
  | heartbeat (q : WorkerHeartbeat) (peer : Peer) (now : ℕ)
  | upsertDataset (q : PersistedDatasetRecord) (peer : Peer) (now : ℕ)
  | createTrainingJob (q : CreateTrainingJobRequest) (peer : Peer) (now : ℕ)
  | rollbackModel (q : RollbackModelRequest) (peer : Peer) (now : ℕ)
  | rotateAtRestKey (keyBytes : Key) (peer : Peer)
  | call (i : ℕ) (now : ℕ)
  | restart (start : Start)

def isAuthorizedAdmin (d : Deployment F) (peer : Peer) : Bool :=
  hasAllowedPeerIdentity peer d.config.adminPeerIdentities

def isAuthorizedWorker (d : Deployment F) (peer : Peer) : Bool :=
  hasAllowedPeerIdentity peer d.config.workerPeerIdentities

def registryEntry (c : PersistedClientRecord) : ClientInfo where
  tenantId := c.tenantId
  modelId := c.modelId
  clientId := c.clientId
  peerIdentity := c.peerIdentity
  localDatasetSize := c.localDatasetSize
  hardwareInfo := c.hardwareInfo
  datasetFingerprint := c.datasetFingerprint
  registeredAt := c.registeredAt
  lastActiveRound := c.lastActiveRound

def loadRegistry (clients : List PersistedClientRecord) : Registry :=
  clients.foldl (fun g c => (register g (registryEntry c)).2) ∅

/-- `RestorePersistedModels`; a checkpoint which cannot be read is skipped. -/
def restorePersistedModels (P : Primitives) (w : World F) (models : List PersistedModelRecord) :
    WeightBuffer F :=
  models.foldl (fun b model =>
    match readCheckpoint P w model.checkpointPath with
    | .error _ => b
    | .ok weights => restoreLatestGlobalModel b model.tenantId model.modelId model.latestRound
        model.version weights) emptyBuffer

/-- `main` from the crypto engine to the services, `none` where it throws. -/
def startWorld (P : Primitives) (w : World F) (start : Start) : Option (World F) :=
  (loadOrGenerateKey w.keyFiles start.freshKey start.freshPayload start.kemSecretKey).map
    (fun keys =>
      let w := { w with crypto := keys.1, keyFiles := keys.2 }
      let w := w.after (load w.disk start.now)
      let w := w.after (updateActiveKeyVersion w.store keys.1.activeKeyVersion start.now)
      { w with
        registry := loadRegistry w.store.clients
        buffer := restorePersistedModels P w (getActiveModels w.store) })

def initial (d : Deployment F) (start : Start) : Server F :=
  let keys := firstKey ∅ start.freshKey start.freshPayload start.kemSecretKey
  { world := {
      registry := ∅
      store := emptyStore d.config.auditEventRetention
      buffer := emptyBuffer
      crypto := keys.1
      disk := emptyStore d.config.auditEventRetention
      files := ∅
      keyFiles := keys.2 }
    federated := none
    calls := []
    served := 0
    origin := fun _ _ => none
    boot := []
    history := []
    past := [] }

def restart (P : Primitives) (s : Server F) (start : Start) : Option (Server F) :=
  (startWorld P s.world start).map (fun w => { s with
    world := w
    federated := none
    calls := []
    origin := fun _ _ => none
    boot := w.store.models
    history := []
    past := s.events })

def requestKey (q : SubmitWeightsRequest) : String :=
  roundKey (normalizeTenant q.tenantId) (normalizeModel q.modelId) q.roundIndex

def activeJobId (store : StateStore) (q : SubmitWeightsRequest) : Option String :=
  (getActiveTrainingJob store (normalizeTenant q.tenantId) (normalizeModel q.modelId)).map (·.jobId)

def namedLease (store : StateStore) (q : SubmitWeightsRequest) : Option PersistedAssignmentLease :=
  store.assignments.find? (fun a => a.assignmentId == q.assignmentId)

/-- The adding step names the origin of the vector, whether or not it stays. -/
def originAfter (s : Server F) (q : SubmitWeightsRequest) (serial : ℕ) (p : SubmitPoint F) :
    String → String → Option Origin :=
  match p with
  | .add job _ => fun key clientId =>
      if key = requestKey q ∧ clientId = q.clientId then
        some ⟨serial, job.bind (fun _ => (namedLease s.world.store q).map (·.jobId))⟩
      else s.origin key clientId
  | _ => s.origin

def observe (d : Deployment F) (s : Server F) (q : SubmitWeightsRequest) (peer : Peer)
    (serial : ℕ) (o : Oracle F) (p : SubmitPoint F) : List (Event F) :=
  let tenantId := normalizeTenant q.tenantId
  let modelId := normalizeModel q.modelId
  match p with
  | .roundCheck _ job =>
    if isRoundCompleted s.world.buffer tenantId modelId q.roundIndex then
      [.refusedCompleted (job.map (·.jobId))] else []
  | .duplicateCheck _ job =>
    if hasClientSubmission s.world.buffer tenantId modelId q.roundIndex q.clientId then
      [.refusedDuplicate (job.map (·.jobId)) (s.origin (requestKey q) q.clientId)] else []
  | .record _ prepared _ =>
    [.recorded tenantId modelId q.roundIndex (nextVersion s.world.store.models tenantId modelId)
      prepared.result]
  | .publish _ _ _ =>
    [.aggregated tenantId modelId q.roundIndex (contributors s (requestKey q)) serial
      (activeJobId s.world.store q)]
  | .accept _ _ =>
    match (acceptTrainingAssignmentSubmission s.world.store tenantId modelId q.clientId q.jobId
        q.assignmentId q.roundIndex q.baseModelVersion o.now).value with
    | .error _ => []
    | .ok () => [.accepted serial q.roundIndex (namedLease s.world.store q)]
  | .advance _ _ => [.advanced serial q.roundIndex (activeJobId s.world.store q)]
  | .respond _ _ =>
    match (stepSubmitWeights d s.world q peer o p).2 with
    | .inl _ => []
    | .inr response => [.answered serial tenantId modelId q.clientId q.roundIndex response]
  | _ => []

def bufferLocked (s : Server F) : Bool :=
  match s.federated with
  | some (.submitWeights _ _ _ p) => p.locksBuffer
  | _ => false

def proceedSubmit (d : Deployment F) (s : Server F) (q : SubmitWeightsRequest) (peer : Peer)
    (serial : ℕ) (o : Oracle F) (p : SubmitPoint F) : Server F :=
  let next := stepSubmitWeights d s.world q peer o p
  { s with
    world := next.1
    federated := match next.2 with
      | .inl p' => some (.submitWeights q peer serial p')
      | .inr _ => none
    origin := originAfter s q serial p
    history := s.history ++ observe d s q peer serial o p }

/-- The handler which holds `proceed_mutex_` goes on. -/
def proceed (d : Deployment F) (s : Server F) (o : Oracle F) : Option (Server F) :=
  match s.federated with
  | none => none
  | some (.registerClient info p) =>
    let next := stepRegisterClient s.world info o.now p
    some { s with world := next.1, federated := next.2.map (.registerClient info) }
  | some (.trainingConfig q p) =>
    let next := stepTrainingConfig d.config s.world q o.now p
    some { s with world := next.1, federated := next.2.map (.trainingConfig q) }
  | some (.submitWeights q peer serial p) => some (proceedSubmit d s q peer serial o p)

/-- A handler of the admin or the worker service goes on. -/
def stepCall (d : Deployment F) (s : Server F) (now : ℕ) :
    Call F → Option (World F × Option (Call F) × List (Event F))
  | .registerWorker q peer p =>
    let next := stepRegisterWorker s.world q peer now p
    some (next.1, next.2.map (.registerWorker q peer), [])
  | .leaseTrainingTask q worker p =>
    let next := stepWorkerLease d.config s.world q worker now p
    some (next.1, next.2.map (.leaseTrainingTask q worker), [])
  | .rollbackModel target .readCheckpoint =>
    some (s.world, match readCheckpoint d.primitives s.world target.checkpointPath with
      | .error _ => none
      | .ok weights => some (.rollbackModel target (.restore weights)), [])
  | .rollbackModel target (.restore weights) =>
    if bufferLocked s then none
    else
      let buffer := restoreLatestGlobalModel s.world.buffer target.tenantId target.modelId
        target.latestRound target.version weights
      some ({ s.world with buffer := buffer }, none,
        [.restored target.tenantId target.modelId target.version weights])
  | .rotateAtRestKey keyVersion =>
    some (s.world.after (updateActiveKeyVersion s.world.store keyVersion now), none, [])

def replaceCall (calls : List (Call F)) (i : ℕ) : Option (Call F) → List (Call F)
  | none => calls.eraseIdx i
  | some call => calls.set i call

def stepCallAt (d : Deployment F) (s : Server F) (i now : ℕ) : Option (Server F) :=
  s.calls[i]?.bind (fun call => (stepCall d s now call).map (fun next => { s with
    world := next.1
    calls := replaceCall s.calls i next.2.1
    history := s.history ++ next.2.2 }))

def startRegisterClient (s : Server F) (q : RegisterClientRequest) (peer : Peer) (now : ℕ) :
    Server F :=
  if rejectsRegisterClient q peer then s
  else
    let info := clientInfo q peer (Timestamps.currentTimestamp now)
    let registered := register s.world.registry info
    { s with
      world := { s.world with registry := registered.2 }
      federated := some (.registerClient info (.latestModel registered.1)) }

def startTrainingConfig (s : Server F) (q : TrainingConfigRequest) (peer : Peer) : Server F :=
  if rejectsTrainingConfig s.world.registry q peer then s
  else { s with federated := some (.trainingConfig q .modelVersion) }

def startSubmit (s : Server F) (q : SubmitWeightsRequest) (peer : Peer) : Server F :=
  { s with
    federated := some (.submitWeights q peer s.served (startSubmitWeights s.world.registry q peer))
    served := s.served + 1
    history := s.history ++
      if checkSubmitWeights q peer = "" ∧ submitIsRegistered s.world.registry q peer = true then
        [.passed (normalizeTenant q.tenantId) (normalizeModel q.modelId) q.clientId
          (normalizePeerIdentity peer.identity)] else [] }

def startRegisterWorker (d : Deployment F) (s : Server F) (q : WorkerRegistration) (peer : Peer)
    (now : ℕ) : Server F :=
  if !isAuthorizedWorker d peer || checkRegisterWorker q != "" then s
  else { s with
    world := s.world.after (upsertWorker s.world.store
      (workerRecord q (Timestamps.currentTimestamp now)) now)
    calls := s.calls ++ [.registerWorker q peer .isRegistered] }

def startLeaseTrainingTask (d : Deployment F) (s : Server F) (q : WorkerTaskLeaseRequest)
    (peer : Peer) : Server F :=
  if !isAuthorizedWorker d peer || validateIdentifier q.workerId "worker_id" false != "" then s
  else match getWorker s.world.store q.workerId with
    | none => s
    | some worker => { s with calls := s.calls ++ [.leaseTrainingTask q worker .modelVersion] }

def startRollbackModel (d : Deployment F) (s : Server F) (q : RollbackModelRequest) (peer : Peer)
    (now : ℕ) : Server F :=
  if !isAuthorizedAdmin d peer || checkRollbackModel q != "" then s
  else
    let rolled := rollbackModel s.world.store q.tenantId q.modelId q.targetVersion now
    { s with
      world := s.world.after rolled
      calls := s.calls ++ match rolled.value with
        | none => []
        | some target => [.rollbackModel target .readCheckpoint] }

def startRotateAtRestKey (d : Deployment F) (s : Server F) (keyBytes : Key) (peer : Peer) :
    Option (Server F) :=
  if !isAuthorizedAdmin d peer then some s
  else (rotateMasterKey s.world.crypto s.world.keyFiles keyBytes).map (fun rotated => { s with
    world := { s.world with crypto := rotated.1, keyFiles := rotated.2 }
    calls := s.calls ++ [.rotateAtRestKey rotated.1.activeKeyVersion] })

/-- The dataset is looked up before the job is created; datasets are never
removed, so both are one step here. -/
def createJob (d : Deployment F) (s : Server F) (q : CreateTrainingJobRequest) (peer : Peer)
    (now : ℕ) : Server F :=
  if !isAuthorizedAdmin d peer || checkCreateTrainingJob q != "" ||
      (getDataset s.world.store q.tenantId q.modelId q.datasetId).isNone then s
  else { s with world := s.world.after (createTrainingJob s.world.store (requestedJob q) now) }

def addDataset (d : Deployment F) (s : Server F) (q : PersistedDatasetRecord) (peer : Peer)
    (now : ℕ) : Server F :=
  if !isAuthorizedAdmin d peer || checkUpsertDataset q != "" then s
  else { s with
    world := s.world.after (upsertDataset s.world.store { q with createdAt := "" } now) }

def reportStatus (d : Deployment F) (s : Server F) (q : WorkerTaskStatusUpdate) (peer : Peer)
    (now : ℕ) : Server F :=
  if !isAuthorizedWorker d peer || validateIdentifier q.workerId "worker_id" false != "" ||
      validateIdentifier q.taskId "task_id" false != "" || !isAllowedTaskStatus q.status then s
  else { s with world := s.world.after (updateWorkerTaskStatus s.world.store q.workerId q.taskId
    (some q.status) q.detail q.progressPercent now) }

def beat (d : Deployment F) (s : Server F) (q : WorkerHeartbeat) (peer : Peer) (now : ℕ) :
    Server F :=
  if !isAuthorizedWorker d peer || validateIdentifier q.workerId "worker_id" false != "" then s
  else { s with world := s.world.after (recordWorkerHeartbeat s.world.store q.workerId
    q.activeTaskId q.detail now) }

/-- One step of the server; the federated service is busy while it has a handler. -/
def step (d : Deployment F) (s : Server F) : Action F → Option (Server F)
  | .registerClient q peer now =>
    if s.federated.isSome then none else some (startRegisterClient s q peer now)
  | .getTrainingConfig q peer =>
    if s.federated.isSome then none else some (startTrainingConfig s q peer)
  | .submitWeights q peer => if s.federated.isSome then none else some (startSubmit s q peer)
  | .proceed o => proceed d s o
  | .registerWorker q peer now => some (startRegisterWorker d s q peer now)
  | .leaseTrainingTask q peer => some (startLeaseTrainingTask d s q peer)
  | .reportTaskStatus q peer now => some (reportStatus d s q peer now)
  | .heartbeat q peer now => some (beat d s q peer now)
  | .upsertDataset q peer now => some (addDataset d s q peer now)
  | .createTrainingJob q peer now => some (createJob d s q peer now)
  | .rollbackModel q peer now => some (startRollbackModel d s q peer now)
  | .rotateAtRestKey keyBytes peer => startRotateAtRestKey d s keyBytes peer
  | .call i now => stepCallAt d s i now
  | .restart start => restart d.primitives s start

end PqFl.Process
