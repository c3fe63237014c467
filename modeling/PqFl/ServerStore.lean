import PqFl.Server
import PqFl.StoreRuns

/-!
# The store of the server

Every step of the server takes at most one method call of the store, and a
restart loads it and sets the key version. So a run of the server is a run of
the store, and what holds of the store's runs holds of the server's store.
-/

set_option autoImplicit false

namespace PqFl.ServerStore
open PqFl.Identifiers PqFl.StoreRecords PqFl.StateStore PqFl.Crypto PqFl.Aggregation PqFl.Buffer
open PqFl.Services PqFl.Process PqFl.StoreRuns PqFl.Runs

variable {F : Type} {d : Deployment F}

def submitOperation (d : Deployment F) (q : SubmitWeightsRequest) : SubmitPoint F → Option Operation
  | .validate _ _ => some (.validateTrainingAssignmentSubmission (normalizeTenant q.tenantId)
      (normalizeModel q.modelId) q.clientId q.jobId q.assignmentId q.roundIndex q.baseModelVersion)
  | .updateClient _ _ => some (.updateClientLastRound (normalizeTenant q.tenantId)
      (normalizeModel q.modelId) q.clientId q.roundIndex)
  | .recordSubmission _ _ => some (.recordWeightSubmission (normalizeTenant q.tenantId)
      (normalizeModel q.modelId) q.clientId q.roundIndex)
  | .record _ p keyVersion => some (.recordAggregatedModel (normalizeTenant q.tenantId)
      (normalizeModel q.modelId) q.roundIndex p.checkpointPath d.config.aggregationStrategy
      keyVersion p.clientCount p.result.length)
  | .accept _ _ => some (.acceptTrainingAssignmentSubmission (normalizeTenant q.tenantId)
      (normalizeModel q.modelId) q.clientId q.jobId q.assignmentId q.roundIndex q.baseModelVersion)
  | .advance _ result => some (.advanceTrainingJobRound (normalizeTenant q.tenantId)
      (normalizeModel q.modelId) q.roundIndex result.modelVersion)
  | _ => none

def federatedOperation (d : Deployment F) (now : ℕ) : FederatedCall F → Option Operation
  | .registerClient info (.record _) => some (.recordClientRegistration (clientRecord info))
  | .registerClient info (.audit response) => some (.recordAuditEvent
      ⟨Timestamps.currentTimestamp now,
        if response.accepted then "client_registered" else "client_register_duplicate",
        info.tenantId, info.modelId, info.clientId,
        "Dataset size " ++ toString info.localDatasetSize⟩)
  | .registerClient _ _ => none
  | .trainingConfig q (.lease modelVersion _) => some (.leaseTrainingAssignment
      (normalizeTenant q.tenantId) (normalizeModel q.modelId) q.clientId modelVersion
      d.config.requiredClients d.config.defaultAssignmentTtlSeconds)
  | .trainingConfig _ _ => none
  | .submitWeights q _ _ p => submitOperation d q p

def callOperation (d : Deployment F) : Call F → Option Operation
  | .registerWorker q peer (.record registeredAt) =>
    some (.recordClientRegistration (clientRecord (trainerInfo q peer registeredAt)))
  | .leaseTrainingTask q worker (.lease modelVersion) => some (.leaseTrainingAssignment
      (leaseTenant q worker) (leaseModel q worker) worker.trainerClientId modelVersion
      d.config.requiredClients d.config.defaultAssignmentTtlSeconds)
  | .leaseTrainingTask _ worker (.leaseTask _ lease) =>
    some (.leaseWorkerTask worker lease.assignment lease.job lease.dataset)
  | .rotateAtRestKey keyVersion => some (.updateActiveKeyVersion keyVersion)
  | _ => none

/-- The operation of a step, with the clock that it reads. -/
def storeOperation (d : Deployment F) (s : Server F) : Action F → Option (Operation × ℕ)
  | .proceed o => (s.federated.bind (federatedOperation d o.now)).map (·, o.now)
  | .call i now => (s.calls[i]?.bind (callOperation d)).map (·, now)
  | .registerWorker q peer now =>
    if !isAuthorizedWorker d peer || checkRegisterWorker q != "" then none
    else some (.upsertWorker (workerRecord q (Timestamps.currentTimestamp now)), now)
  | .reportTaskStatus q peer now =>
    if !isAuthorizedWorker d peer || validateIdentifier q.workerId "worker_id" false != "" ||
        validateIdentifier q.taskId "task_id" false != "" || !isAllowedTaskStatus q.status then none
    else some (.updateWorkerTaskStatus q.workerId q.taskId (some q.status) q.detail
      q.progressPercent, now)
  | .heartbeat q peer now =>
    if !isAuthorizedWorker d peer || validateIdentifier q.workerId "worker_id" false != "" then none
    else some (.recordWorkerHeartbeat q.workerId q.activeTaskId q.detail, now)
  | .upsertDataset q peer now =>
    if !isAuthorizedAdmin d peer || checkUpsertDataset q != "" then none
    else some (.upsertDataset { q with createdAt := "" }, now)
  | .createTrainingJob q peer now =>
    if !isAuthorizedAdmin d peer || checkCreateTrainingJob q != "" ||
        (getDataset s.world.store q.tenantId q.modelId q.datasetId).isNone then none
    else some (.createTrainingJob (requestedJob q), now)
  | .rollbackModel q peer now =>
    if !isAuthorizedAdmin d peer || checkRollbackModel q != "" then none
    else some (.rollbackModel q.tenantId q.modelId q.targetVersion, now)
  | _ => none

/-- The key version which a start of the process sets in the store. -/
def startKeyVersion (s : Server F) (start : Start) : Option ℤ :=
  (loadOrGenerateKey s.world.keyFiles start.freshKey start.freshPayload start.kemSecretKey).map
    (·.1.activeKeyVersion)

def storeActions (d : Deployment F) (s : Server F) : Action F → List StoreAction
  | .restart start =>
    match startKeyVersion s start with
    | none => []
    | some keyVersion => [.load start.now, .perform (.updateActiveKeyVersion keyVersion) start.now]
  | a =>
    match storeOperation d s a with
    | none => []
    | some (op, now) => [.perform op now]

/-- A process of the store with the records and the file of the server. -/
structure StoreSide (w : World F) (p : StoreProcess) : Prop where
  store : p.store = w.store
  disk : p.disk = w.disk

theorem storeSide_after {α : Type} {w : World F} {p : StoreProcess} (h : StoreSide w p)
    {op : Operation} {now : ℕ} {o : Outcome α} (ho : written o = perform w.store now op) :
    ∃ p', exec StoreRuns.step [.perform op now] p = some p' ∧ StoreSide (w.after o) p' := by
  obtain ⟨store, disk, clock, activated⟩ := p
  obtain ⟨rfl, rfl⟩ := h
  refine ⟨_, rfl, ?_, ?_⟩
  · show (perform w.store now op).store = o.store
    rw [← ho]
    rfl
  · show (if (perform w.store now op).save then _ else _) = _
    rw [← ho]
    rfl

theorem storeSide_same {w w' : World F} {p : StoreProcess} (h : StoreSide w p)
    (hstore : w'.store = w.store) (hdisk : w'.disk = w.disk) :
    ∃ p', exec StoreRuns.step [] p = some p' ∧ StoreSide w' p' :=
  ⟨p, rfl, h.store.trans hstore.symm, h.disk.trans hdisk.symm⟩

theorem initial_storeSide (d : Deployment F) (start : Start) :
    StoreSide (initial d start).world (StoreRuns.initial d.config.auditEventRetention) := ⟨rfl, rfl⟩

def StoreReached (s : Server F) : Prop := ∃ n p,
  Reaches StoreRuns.step Free (StoreRuns.initial n) p ∧ StoreSide s.world p

theorem initial_storeReached (d : Deployment F) (start : Start) : StoreReached (initial d start) :=
  ⟨_, _, .start, initial_storeSide d start⟩

theorem storeActions_running {s : Server F} {a : Action F} (hrestart : ∀ start, a ≠ .restart start) :
    storeActions d s a = ((storeOperation d s a).map (fun performed =>
      StoreAction.perform performed.1 performed.2)).toList := by
  cases a with
  | restart start => exact absurd rfl (hrestart start)
  | _ =>
    simp only [storeActions]
    split
    · rename_i hop
      rw [hop]
      rfl
    · rename_i hop
      rw [hop]
      rfl

variable [FloatArith F]

theorem proceedSubmit_storeRun {s : Server F} {q : SubmitWeightsRequest} {peer : Peer} {serial : ℕ}
    {o : Oracle F} {point : SubmitPoint F} {p : StoreProcess} (hp : StoreSide s.world p) :
    ∃ p', exec StoreRuns.step (match (submitOperation d q point).map (·, o.now) with
      | none => []
      | some (op, now) => [.perform op now]) p = some p' ∧
      StoreSide (proceedSubmit d s q peer serial o point).world p' := by
  cases point with
  | modelVersion => exact storeSide_same hp rfl rfl
  | activeJob current =>
    have hsame : (proceedSubmit d s q peer serial o (.activeJob current)).world = s.world := by
      simp only [proceedSubmit, stepSubmitWeights]
      split <;> rfl
    exact storeSide_same hp (by rw [hsame]) (by rw [hsame])
  | validate current job => exact storeSide_after hp rfl
  | roundCheck current job => exact storeSide_same hp rfl rfl
  | duplicateCheck current job => exact storeSide_same hp rfl rfl
  | decrypt job =>
    apply storeSide_same hp
    · simp only [proceedSubmit, stepSubmitWeights]
      split <;> rfl
    · simp only [proceedSubmit, stepSubmitWeights]
      split <;> rfl
  | updateClient job weights => exact storeSide_after hp rfl
  | recordSubmission job weights => exact storeSide_after hp rfl
  | add job weights => exact storeSide_same hp rfl rfl
  | keyVersion job pr => exact storeSide_same hp rfl rfl
  | record job pr keyVersion => exact storeSide_after hp rfl
  | publish job pr v => exact storeSide_same hp rfl rfl
  | accept job result => exact storeSide_after hp rfl
  | advance job result => exact storeSide_after hp rfl
  | respond response countClients => exact storeSide_same hp rfl rfl

theorem proceed_storeRun {s s' : Server F} {o : Oracle F} {p : StoreProcess}
    (hp : StoreSide s.world p) (h : proceed d s o = some s') :
    ∃ p', exec StoreRuns.step (storeActions d s (.proceed o)) p = some p' ∧
      StoreSide s'.world p' := by
  unfold proceed at h
  simp only [storeActions, storeOperation]
  cases hf : s.federated with
  | none =>
    rw [hf] at h
    cases h
  | some call =>
    rw [hf] at h
    simp only [Option.bind_some]
    cases call with
    | registerClient info point =>
      cases h
      cases point with
      | latestModel accepted => exact storeSide_same hp rfl rfl
      | modelVersion accepted round => exact storeSide_same hp rfl rfl
      | record response => exact storeSide_after hp rfl
      | audit response => exact storeSide_after hp rfl
    | trainingConfig q point =>
      cases h
      cases point with
      | modelVersion => exact storeSide_same hp rfl rfl
      | keyVersion modelVersion => exact storeSide_same hp rfl rfl
      | lease modelVersion keyVersion => exact storeSide_after hp rfl
      | respond response => exact storeSide_same hp rfl rfl
    | submitWeights q peer serial point =>
      cases h
      exact proceedSubmit_storeRun hp

theorem stepCallAt_storeRun {s s' : Server F} {i now : ℕ} {p : StoreProcess}
    (hp : StoreSide s.world p) (h : stepCallAt d s i now = some s') :
    ∃ p', exec StoreRuns.step (storeActions d s (.call i now)) p = some p' ∧
      StoreSide s'.world p' := by
  unfold stepCallAt at h
  obtain ⟨call, hcall, hrest⟩ := Option.bind_eq_some_iff.mp h
  obtain ⟨next, hnext, rfl⟩ := Option.map_eq_some_iff.mp hrest
  simp only [storeActions, storeOperation, hcall, Option.bind_some]
  cases call with
  | registerWorker q peer point =>
    cases hnext
    cases point with
    | isRegistered => exact storeSide_same hp rfl rfl
    | register => exact storeSide_same hp rfl rfl
    | bind => exact storeSide_same hp rfl rfl
    | record registeredAt => exact storeSide_after hp rfl
  | leaseTrainingTask q worker point =>
    cases hnext
    cases point with
    | modelVersion => exact storeSide_same hp rfl rfl
    | lease modelVersion => exact storeSide_after hp rfl
    | leaseTask modelVersion lease => exact storeSide_after hp rfl
    | modelRecord modelVersion lease task => exact storeSide_same hp rfl rfl
    | respond response => exact storeSide_same hp rfl rfl
  | rollbackModel target point =>
    cases point with
    | readCheckpoint =>
      cases hnext
      exact storeSide_same hp rfl rfl
    | restore weights =>
      simp only [stepCall] at hnext
      split at hnext
      · cases hnext
      · cases hnext
        exact storeSide_same hp rfl rfl
  | rotateAtRestKey keyVersion =>
    cases hnext
    exact storeSide_after hp rfl

theorem restart_storeRun {s s' : Server F} {start : Start} {p : StoreProcess}
    (hp : StoreSide s.world p) (h : restart d.primitives s start = some s') :
    ∃ p', exec StoreRuns.step (storeActions d s (.restart start)) p = some p' ∧
      StoreSide s'.world p' := by
  obtain ⟨w, hw, rfl⟩ := Option.map_eq_some_iff.mp h
  obtain ⟨keys, hkeys, rfl⟩ := Option.map_eq_some_iff.mp hw
  have hversion : startKeyVersion s start = some keys.1.activeKeyVersion := by
    rw [startKeyVersion, hkeys]
    rfl
  obtain ⟨store, disk, clock, activated⟩ := p
  obtain ⟨rfl, rfl⟩ := hp
  simp only [storeActions, hversion]
  let loaded := { s.world with crypto := keys.1, keyFiles := keys.2 }.after
    (load s.world.disk start.now)
  have hside : StoreSide loaded ⟨loaded.store, loaded.disk, start.now, activated⟩ := ⟨rfl, rfl⟩
  have hset : written (updateActiveKeyVersion loaded.store keys.1.activeKeyVersion start.now) =
      perform loaded.store start.now (.updateActiveKeyVersion keys.1.activeKeyVersion) := rfl
  obtain ⟨p', hp', hside⟩ := storeSide_after hside hset
  exact ⟨p', hp', hside.store, hside.disk⟩

theorem step_storeRun {s s' : Server F} {a : Action F} {p : StoreProcess}
    (hp : StoreSide s.world p) (h : Process.step d s a = some s') :
    ∃ p', exec StoreRuns.step (storeActions d s a) p = some p' ∧ StoreSide s'.world p' := by
  cases a with
  | proceed o => exact proceed_storeRun hp h
  | call i now => exact stepCallAt_storeRun hp h
  | restart start => exact restart_storeRun hp h
  | registerClient q peer now =>
    simp only [Process.step] at h
    split at h
    · cases h
    · cases h
      unfold startRegisterClient
      split
      · exact storeSide_same hp rfl rfl
      · exact storeSide_same hp rfl rfl
  | getTrainingConfig q peer =>
    simp only [Process.step] at h
    split at h
    · cases h
    · cases h
      unfold startTrainingConfig
      split
      · exact storeSide_same hp rfl rfl
      · exact storeSide_same hp rfl rfl
  | submitWeights q peer =>
    simp only [Process.step] at h
    split at h
    · cases h
    · cases h
      exact storeSide_same hp rfl rfl
  | registerWorker q peer now =>
    cases h
    unfold storeActions storeOperation startRegisterWorker
    dsimp only
    split_ifs
    · exact storeSide_same hp rfl rfl
    · exact storeSide_after hp rfl
  | leaseTrainingTask q peer =>
    cases h
    unfold startLeaseTrainingTask
    split
    · exact storeSide_same hp rfl rfl
    · split
      · exact storeSide_same hp rfl rfl
      · exact storeSide_same hp rfl rfl
  | reportTaskStatus q peer now =>
    cases h
    unfold storeActions storeOperation reportStatus
    dsimp only
    split_ifs
    · exact storeSide_same hp rfl rfl
    · exact storeSide_after hp rfl
  | heartbeat q peer now =>
    cases h
    unfold storeActions storeOperation beat
    dsimp only
    split_ifs
    · exact storeSide_same hp rfl rfl
    · exact storeSide_after hp rfl
  | upsertDataset q peer now =>
    cases h
    unfold storeActions storeOperation addDataset
    dsimp only
    split_ifs
    · exact storeSide_same hp rfl rfl
    · exact storeSide_after hp rfl
  | createTrainingJob q peer now =>
    cases h
    unfold storeActions storeOperation createJob
    dsimp only
    split_ifs
    · exact storeSide_same hp rfl rfl
    · exact storeSide_after hp rfl
  | rollbackModel q peer now =>
    cases h
    unfold storeActions storeOperation startRollbackModel
    dsimp only
    split_ifs
    · exact storeSide_same hp rfl rfl
    · exact storeSide_after hp rfl
  | rotateAtRestKey keyBytes peer =>
    simp only [Process.step, startRotateAtRestKey] at h
    split at h
    · cases h
      exact storeSide_same hp rfl rfl
    · obtain ⟨rotated, -, rfl⟩ := Option.map_eq_some_iff.mp h
      exact storeSide_same hp rfl rfl

theorem run_storeRun {ok : Server F → Action F → Prop} {start : Start} {s : Server F}
    (h : Reaches (Process.step d) ok (initial d start) s) :
    ∃ p, Reaches StoreRuns.step Free (StoreRuns.initial d.config.auditEventRetention) p ∧
      StoreSide s.world p := by
  induction h with
  | start => exact ⟨_, .start, initial_storeSide d start⟩
  | next _ _ hs ih =>
    obtain ⟨p, hreach, hside⟩ := ih
    obtain ⟨p', hexec, hside'⟩ := step_storeRun hside hs
    exact ⟨p', hreach.trans (exec_reaches _ hexec), hside'⟩

theorem step_storeReached {s s' : Server F} {a : Action F} (h : StoreReached s)
    (hs : Process.step d s a = some s') : StoreReached s' := by
  obtain ⟨n, p, hreach, hside⟩ := h
  obtain ⟨p', hexec, hside'⟩ := step_storeRun hside hs
  exact ⟨n, p', hreach.trans (exec_reaches _ hexec), hside'⟩

/-- The rule for the store: while the process runs, a step performs its operation,
and what is saved is what the store then holds. -/
theorem step_performed {s s' : Server F} {a : Action F} (h : Process.step d s a = some s')
    (hrestart : ∀ start, a ≠ .restart start) :
    (storeOperation d s a = none ∧ s'.world.store = s.world.store ∧
      s'.world.disk = s.world.disk) ∨
    ∃ op now, storeOperation d s a = some (op, now) ∧
      s'.world.store = (perform s.world.store now op).store ∧
      (s'.world.disk = s'.world.store ∨ s'.world.disk = s.world.disk) := by
  have hside : StoreSide s.world ⟨s.world.store, s.world.disk, 0, []⟩ := ⟨rfl, rfl⟩
  obtain ⟨p, hexec, hside'⟩ := step_storeRun hside h
  rw [← hside'.store, ← hside'.disk]
  rw [storeActions_running hrestart] at hexec
  cases hop : storeOperation d s a with
  | none =>
    rw [hop] at hexec
    cases hexec
    exact .inl ⟨rfl, rfl, rfl⟩
  | some performed =>
    obtain ⟨op, now⟩ := performed
    rw [hop] at hexec
    cases hexec
    refine .inr ⟨op, now, rfl, rfl, ?_⟩
    dsimp only
    split
    · exact .inl rfl
    · exact .inr rfl

theorem step_store {s s' : Server F} {a : Action F} (h : Process.step d s a = some s')
    (hrestart : ∀ start, a ≠ .restart start) :
    s'.world.store = match storeOperation d s a with
      | none => s.world.store
      | some (op, now) => (perform s.world.store now op).store := by
  rcases step_performed h hrestart with ⟨hop, hstore, -⟩ | ⟨op, now, hop, hstore, -⟩
  · rw [hop]
    exact hstore
  · rw [hop]
    exact hstore

/-- What a restart brings back: the clients and the models as they were, the
registry and the buffer from them. -/
structure Restarted (P : Primitives) (s s' : Server F) : Prop where
  clients : s'.world.store.clients = s.world.store.clients
  models : s'.world.store.models = s.world.store.models
  registry : s'.world.registry = loadRegistry s'.world.store.clients
  files : s'.world.files = s.world.files
  boot : s'.boot = s'.world.store.models
  calls : s'.calls = []
  federated : s'.federated = none
  events : s'.events = s.events

theorem restart_restarted {P : Primitives} {s s' : Server F} {start : Start} (h : StoreReached s)
    (hs : restart P s start = some s') : Restarted P s s' := by
  obtain ⟨w, hw, rfl⟩ := Option.map_eq_some_iff.mp hs
  obtain ⟨keys, -, rfl⟩ := Option.map_eq_some_iff.mp hw
  obtain ⟨n, p, hreach, hside⟩ := h
  have hbacked := run_backed hreach
  obtain ⟨hclients, hmodels, -⟩ := load_fields hbacked.disk start.now
  obtain ⟨hclients', hmodels', -⟩ := records_eq hbacked.same
  obtain ⟨-, hkeyClients, hkeyModels⟩ := updateActiveKeyVersion_frame
    (load s.world.disk start.now).store keys.1.activeKeyVersion start.now
  rw [hside.disk] at hclients hmodels hclients' hmodels'
  rw [hside.store] at hclients' hmodels'
  refine ⟨?_, ?_, rfl, rfl, rfl, rfl, rfl, ?_⟩
  · exact hkeyClients.trans (hclients.trans hclients')
  · exact hkeyModels.trans (hmodels.trans hmodels')
  · exact List.append_nil _

end PqFl.ServerStore
