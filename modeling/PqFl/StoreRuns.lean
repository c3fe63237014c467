import PqFl.JobLedger
import PqFl.Runs
import PqFl.TimestampOrder

/-!
# Runs of the state store

A store takes one method call after the other, and a new process may load it
again from its file. Most calls save the records; those that do not have at
most swept leases that ran out. So memory and file always agree but for leases
which the next load expires again.

The field `activated` is history: which version of which scope was made the
active one. No step reads it.
-/

set_option autoImplicit false

namespace PqFl.StoreRuns
open PqFl.Identifiers PqFl.Timestamps PqFl.StoreRecords PqFl.StateStore PqFl.ListUpdate
open PqFl.JobLedger PqFl.Runs

/-- The methods which may write, with their arguments. -/
inductive Operation where
  | recordClientRegistration (record : PersistedClientRecord)
  | updateClientLastRound (tenantId modelId clientId : String) (round : ℤ)
  | recordWeightSubmission (tenantId modelId clientId : String) (round : ℤ)
  | recordAggregatedModel (tenantId modelId : String) (round : ℤ)
      (checkpointPath aggregationStrategy : String) (keyVersion clientCount weightDimension : ℤ)
  | rollbackModel (tenantId modelId : String) (targetVersion : ℤ)
  | updateActiveKeyVersion (activeKeyVersion : ℤ)
  | recordAuditEvent (event : PersistedAuditEvent)
  | upsertDataset (record : PersistedDatasetRecord)
  | createTrainingJob (record : PersistedTrainingJobRecord)
  | leaseTrainingAssignment (tenantId modelId clientId : String)
      (activeModelVersion defaultMinClients defaultAssignmentTtlSeconds : ℤ)
  | validateTrainingAssignmentSubmission (tenantId modelId clientId jobId assignmentId : String)
      (round baseModelVersion : ℤ)
  | acceptTrainingAssignmentSubmission (tenantId modelId clientId jobId assignmentId : String)
      (round baseModelVersion : ℤ)
  | advanceTrainingJobRound (tenantId modelId : String) (round activeModelVersion : ℤ)
  | upsertWorker (record : PersistedWorkerRecord)
  | leaseWorkerTask (worker : PersistedWorkerRecord) (assignment : PersistedAssignmentLease)
      (job : PersistedTrainingJobRecord) (dataset : PersistedDatasetRecord)
  | updateWorkerTaskStatus (workerId taskId : String) (status : Option TaskStatus) (detail : String)
      (progressPercent : ℤ)
  | recordWorkerHeartbeat (workerId activeTaskId detail : String)

/-- An outcome without its result. -/
def written {α : Type} (o : Outcome α) : Outcome Unit := ⟨(), o.store, o.save⟩

def perform (s : StateStore) (now : ℕ) : Operation → Outcome Unit
  | .recordClientRegistration record => written (recordClientRegistration s record now)
  | .updateClientLastRound t m c round => written (updateClientLastRound s t m c round)
  | .recordWeightSubmission t m c round => written (recordWeightSubmission s t m c round now)
  | .recordAggregatedModel t m round path strategy keyVersion clientCount weightDimension =>
    written (recordAggregatedModel s t m round path strategy keyVersion clientCount weightDimension
      now)
  | .rollbackModel t m targetVersion => written (rollbackModel s t m targetVersion now)
  | .updateActiveKeyVersion version => written (updateActiveKeyVersion s version now)
  | .recordAuditEvent event => written (recordAuditEvent s event now)
  | .upsertDataset record => written (upsertDataset s record now)
  | .createTrainingJob record => written (createTrainingJob s record now)
  | .leaseTrainingAssignment t m c version minClients ttl =>
    written (leaseTrainingAssignment s t m c version minClients ttl now)
  | .validateTrainingAssignmentSubmission t m c jobId id round version =>
    written (validateTrainingAssignmentSubmission s t m c jobId id round version now)
  | .acceptTrainingAssignmentSubmission t m c jobId id round version =>
    written (acceptTrainingAssignmentSubmission s t m c jobId id round version now)
  | .advanceTrainingJobRound t m round version =>
    written (advanceTrainingJobRound s t m round version now)
  | .upsertWorker record => written (upsertWorker s record now)
  | .leaseWorkerTask worker assignment job dataset =>
    written (leaseWorkerTask s worker assignment job dataset now)
  | .updateWorkerTaskStatus workerId taskId status detail progressPercent =>
    written (updateWorkerTaskStatus s workerId taskId status detail progressPercent now)
  | .recordWorkerHeartbeat workerId activeTaskId detail =>
    written (recordWorkerHeartbeat s workerId activeTaskId detail now)

structure StoreProcess where
  store : StateStore
  disk : StateStore
  clock : ℕ
  activated : List (String × String × ℤ)

inductive StoreAction where
  | perform (op : Operation) (now : ℕ)
  | load (now : ℕ)

/-- The version which an operation makes the active one. -/
def activation (s : StateStore) (now : ℕ) : Operation → List (String × String × ℤ)
  | .recordAggregatedModel t m round path strategy keyVersion clientCount weightDimension =>
    [(normalizeTenant t, normalizeModel m, (recordAggregatedModel s t m round path strategy keyVersion
      clientCount weightDimension now).value)]
  | .rollbackModel t m targetVersion =>
    if (rollbackModel s t m targetVersion now).value.isSome then
      [(normalizeTenant t, normalizeModel m, targetVersion)] else []
  | _ => []

def step (p : StoreProcess) : StoreAction → Option StoreProcess
  | .perform op now =>
    let performed := StoreRuns.perform p.store now op
    some {
      store := performed.store
      disk := if performed.save then performed.store else p.disk
      clock := now
      activated := p.activated ++ activation p.store now op }
  | .load now =>
    let loaded := StateStore.load p.disk now
    some { p with store := loaded.store, disk := loaded.store, clock := now }

def StoreAction.now : StoreAction → ℕ
  | .perform _ now => now
  | .load now => now

/-- The clock does not go back, and stays in the range of `system_clock`. -/
def Timely (p : StoreProcess) (a : StoreAction) : Prop := p.clock ≤ a.now ∧ a.now < clockEnd

instance (p : StoreProcess) (a : StoreAction) : Decidable (Timely p a) :=
  inferInstanceAs (Decidable (_ ∧ _))

def initial (auditRetention : ℕ) : StoreProcess :=
  ⟨emptyStore auditRetention, emptyStore auditRetention, 0, []⟩

def records (s : StateStore) : StateStore := { s with assignments := [], auditEvents := [] }

@[simp] theorem records_trim (s : StateStore) : records (trimAuditEventsLocked s) = records s := by
  unfold trimAuditEventsLocked
  split <;> rfl

@[simp] theorem records_push (s : StateStore) (event : PersistedAuditEvent) :
    records (pushAuditEvent s event) = records s := records_trim _

@[simp] theorem records_expire (s : StateStore) (now : String) :
    records (expireAssignmentsLocked s now) = records s := by
  unfold expireAssignmentsLocked
  dsimp only
  split
  · rfl
  · rw [records_trim]
    rfl

theorem records_eq {s s' : StateStore} (h : records s' = records s) :
    s'.clients = s.clients ∧ s'.models = s.models ∧ s'.datasets = s.datasets ∧
      s'.trainingJobs = s.trainingJobs ∧ s'.workers = s.workers ∧ s'.workerTasks = s.workerTasks ∧
      s'.completedRounds = s.completedRounds := by
  simp only [records, StateStore.mk.injEq] at h
  exact ⟨h.2.1, h.2.2.1, h.2.2.2.1, h.2.2.2.2.1, h.2.2.2.2.2.2.1, h.2.2.2.2.2.2.2.1,
    h.2.2.2.2.2.2.2.2.2.1⟩

/-- The store has at most expired leases that ran out. -/
def Swept (now : ℕ) (s s' : StateStore) : Prop := s' = s ∨ (records s' = records s ∧
  s'.assignments = s.assignments.map (lapse (currentTimestamp now)))

theorem swept_expire (s : StateStore) (now : ℕ) :
    Swept now s (expireAssignmentsLocked s (currentTimestamp now)) :=
  .inr ⟨records_expire s _, (expireAssignmentsLocked_frame s _).2.1⟩

theorem perform_swept {s : StateStore} {now : ℕ} {op : Operation}
    (h : (perform s now op).save = false) : Swept now s (perform s now op).store := by
  cases op with
  | recordClientRegistration record => cases h
  | updateClientLastRound t m c round => cases h
  | recordWeightSubmission t m c round => cases h
  | recordAggregatedModel t m round path strategy keyVersion clientCount weightDimension => cases h
  | rollbackModel t m targetVersion =>
    simp only [perform, written, rollbackModel] at h ⊢
    split at h
    · exact .inl rfl
    · cases h
  | updateActiveKeyVersion version =>
    simp only [perform, written, updateActiveKeyVersion] at h ⊢
    split at h
    · rename_i hsame
      rw [if_pos hsame]
      exact .inl rfl
    · cases h
  | recordAuditEvent event => cases h
  | upsertDataset record => cases h
  | createTrainingJob record => cases h
  | leaseTrainingAssignment t m c version minClients ttl =>
    simp only [perform, written, leaseTrainingAssignment] at h ⊢
    split at h
    · exact swept_expire s now
    · split at h
      · cases h
      · unfold grantLease at h
        dsimp only at h
        split at h
        · cases h
        · split at h
          · cases h
          · cases h
  | validateTrainingAssignmentSubmission t m c jobId id round version =>
    simp only [perform, written, validateTrainingAssignmentSubmission] at h ⊢
    split at h
    · exact swept_expire s now
    · exact swept_expire s now
    · cases h
    · exact swept_expire s now
  | acceptTrainingAssignmentSubmission t m c jobId id round version =>
    simp only [perform, written, acceptTrainingAssignmentSubmission] at h ⊢
    split at h
    · exact swept_expire s now
    · exact swept_expire s now
    · cases h
    · cases h
  | advanceTrainingJobRound t m round version =>
    simp only [perform, written, advanceTrainingJobRound] at h ⊢
    split at h
    · exact .inl rfl
    · cases h
  | upsertWorker record => cases h
  | leaseWorkerTask worker assignment job dataset =>
    simp only [perform, written, leaseWorkerTask] at h ⊢
    split at h
    · cases h
    · cases h
  | updateWorkerTaskStatus workerId taskId status detail progressPercent =>
    simp only [perform, written, updateWorkerTaskStatus] at h ⊢
    split at h
    · exact .inl rfl
    · split at h
      · rename_i hother
        rw [if_pos hother]
        exact .inl rfl
      · cases h
  | recordWorkerHeartbeat workerId activeTaskId detail =>
    simp only [perform, written, recordWorkerHeartbeat] at h ⊢
    split at h
    · exact .inl rfl
    · cases h

/-- What an operation does to jobs and leases. -/
inductive LedgerStep (s : StateStore) (now : ℕ) : Operation → StateStore → Prop
  | moved {op : Operation} {s' : StateStore} (h : Move s s') : LedgerStep s now op s'
  | create {record : PersistedTrainingJobRecord} :
      LedgerStep s now (.createTrainingJob record) (createTrainingJob s record now).store
  | advance {t m : String} {r v : ℤ} :
      LedgerStep s now (.advanceTrainingJobRound t m r v) (advanceTrainingJobRound s t m r v now).store

theorem perform_ledgerStep (s : StateStore) (now : ℕ) (op : Operation) :
    LedgerStep s now op (perform s now op).store := by
  cases op with
  | recordClientRegistration record =>
    exact .moved (.of_jobRecords (recordClientRegistration_frame _ _ now).1)
  | updateClientLastRound t m c round =>
    exact .moved (.of_jobRecords (updateClientLastRound_frame _ _ _ _ _).1)
  | recordWeightSubmission t m c round =>
    exact .moved (.of_jobRecords (recordWeightSubmission_frame _ _ _ _ _ _).1)
  | recordAggregatedModel t m round path strategy keyVersion clientCount weightDimension =>
    exact .moved (.of_jobRecords (recordAggregatedModel_frame _ _ _ _ _ _ _ _ _ _).1)
  | rollbackModel t m targetVersion =>
    exact .moved (.of_jobRecords (rollbackModel_frame _ _ _ _ _).1)
  | updateActiveKeyVersion version =>
    exact .moved (.of_jobRecords (updateActiveKeyVersion_frame _ _ _).1)
  | recordAuditEvent event => exact .moved (.of_jobRecords (recordAuditEvent_frame _ _ _).1)
  | upsertDataset record => exact .moved (.of_jobRecords (upsertDataset_frame _ _ _).1)
  | createTrainingJob record => exact .create
  | leaseTrainingAssignment t m c version minClients ttl => exact .moved (lease_move _ _ _ _ _ _ _ _)
  | validateTrainingAssignmentSubmission t m c jobId id round version =>
    exact .moved (validate_move _ _ _ _ _ _ _ _ _)
  | acceptTrainingAssignmentSubmission t m c jobId id round version =>
    exact .moved (accept_move _ _ _ _ _ _ _ _ _)
  | advanceTrainingJobRound t m round version => exact .advance
  | upsertWorker record => exact .moved (.of_jobRecords (upsertWorker_frame _ _ _).1)
  | leaseWorkerTask worker assignment job dataset =>
    exact .moved (.of_jobRecords (leaseWorkerTask_frame _ _ _ _ _ _).1)
  | updateWorkerTaskStatus workerId taskId status detail progressPercent =>
    exact .moved (.of_jobRecords (updateWorkerTaskStatus_frame _ _ _ _ _ _ _).1)
  | recordWorkerHeartbeat workerId activeTaskId detail =>
    exact .moved (.of_jobRecords (recordWorkerHeartbeat_frame _ _ _ _ _).1)

theorem perform_orderly {s : StateStore} (h : Orderly s) (now : ℕ) (op : Operation) :
    Orderly (perform s now op).store := by
  cases perform_ledgerStep s now op with
  | moved hm => exact h.move hm
  | create => exact h.create _ _
  | advance => exact h.advance _ _ _ _ _

def InNormalScope (t m : String) : Prop := normalizeTenant t = t ∧ normalizeModel m = m

theorem inNormalScope_normalize (t m : String) :
    InNormalScope (normalizeTenant t) (normalizeModel m) :=
  ⟨normalizeTenant_idem t, normalizeModel_idem m⟩

/-- Jobs and leases are in order, and the scopes of the other records are normal
too, except that worker tasks take theirs from the caller. -/
structure Tidy (s : StateStore) : Prop where
  order : Orderly s
  clients : ∀ c ∈ s.clients, InNormalScope c.tenantId c.modelId
  models : ∀ m ∈ s.models, InNormalScope m.tenantId m.modelId
  datasets : ∀ d ∈ s.datasets, InNormalScope d.tenantId d.modelId
  workers : ∀ w ∈ s.workers, InNormalScope w.tenantId w.modelId

theorem tidy_empty (n : ℕ) : Tidy (emptyStore n) where
  order := orderly_empty n
  clients := by simp [emptyStore]
  models := by simp [emptyStore]
  datasets := by simp [emptyStore]
  workers := by simp [emptyStore]

@[simp] theorem push_datasets (s : StateStore) (event : PersistedAuditEvent) :
    (pushAuditEvent s event).datasets = s.datasets := (records_eq (records_push s event)).2.2.1

@[simp] theorem push_workers (s : StateStore) (event : PersistedAuditEvent) :
    (pushAuditEvent s event).workers = s.workers := (records_eq (records_push s event)).2.2.2.2.1

@[simp] theorem push_workerTasks (s : StateStore) (event : PersistedAuditEvent) :
    (pushAuditEvent s event).workerTasks = s.workerTasks :=
  (records_eq (records_push s event)).2.2.2.2.2.1

@[simp] theorem expire_datasets (s : StateStore) (now : String) :
    (expireAssignmentsLocked s now).datasets = s.datasets :=
  (records_eq (records_expire s now)).2.2.1

@[simp] theorem expire_workers (s : StateStore) (now : String) :
    (expireAssignmentsLocked s now).workers = s.workers :=
  (records_eq (records_expire s now)).2.2.2.2.1

@[simp] theorem expire_workerTasks (s : StateStore) (now : String) :
    (expireAssignmentsLocked s now).workerTasks = s.workerTasks :=
  (records_eq (records_expire s now)).2.2.2.2.2.1

/-- What hardly any operation sets. -/
def settings (s : StateStore) : ℕ × List PersistedDatasetRecord × ℤ :=
  (s.auditRetention, s.datasets, s.activeKeyVersion)

theorem settings_of_records {s s' : StateStore} (h : records s' = records s) :
    settings s' = settings s := by
  have hsettings := congrArg settings h
  exact hsettings

theorem settings_push (s : StateStore) (event : PersistedAuditEvent) :
    settings (pushAuditEvent s event) = settings s := settings_of_records (records_push s event)

theorem settings_expire (s : StateStore) (now : String) :
    settings (expireAssignmentsLocked s now) = settings s :=
  settings_of_records (records_expire s now)

theorem perform_settings (s : StateStore) (now : ℕ) {op : Operation}
    (hdataset : ∀ record, op ≠ .upsertDataset record)
    (hversion : ∀ version, op ≠ .updateActiveKeyVersion version) :
    settings (perform s now op).store = settings s := by
  cases op with
  | upsertDataset record => exact absurd rfl (hdataset record)
  | updateActiveKeyVersion version => exact absurd rfl (hversion version)
  | recordClientRegistration record => rfl
  | updateClientLastRound t m c round => rfl
  | recordWeightSubmission t m c round => exact settings_push _ _
  | recordAggregatedModel t m round path strategy keyVersion clientCount weightDimension =>
    exact settings_push _ _
  | rollbackModel t m version =>
    simp only [perform, written, rollbackModel]
    split
    · rfl
    · exact settings_push _ _
  | recordAuditEvent event => exact settings_push _ _
  | createTrainingJob record => exact settings_push _ _
  | leaseTrainingAssignment t m c version minClients ttl =>
    simp only [perform, written, leaseTrainingAssignment]
    split
    · exact settings_expire _ _
    split
    · exact settings_expire _ _
    · rename_i job _ _
      rcases grantLease_cases (updateActiveTrainingJob (expireAssignmentsLocked s
        (currentTimestamp now)) t m (fun _ => runningJob (currentTimestamp now) job))
        (runningJob (currentTimestamp now) job) t m c version minClients ttl now with h | ⟨event, h⟩
      · rw [h]
        exact settings_expire _ _
      · rw [h]
        exact (settings_push _ _).trans (settings_expire _ _)
  | validateTrainingAssignmentSubmission t m c jobId id round version =>
    simp only [perform, written, validateTrainingAssignmentSubmission]
    split
    · exact settings_expire _ _
    · exact settings_expire _ _
    · exact settings_expire _ _
    · exact settings_expire _ _
  | acceptTrainingAssignmentSubmission t m c jobId id round version =>
    simp only [perform, written, acceptTrainingAssignmentSubmission]
    split
    · exact settings_expire _ _
    · exact settings_expire _ _
    · exact settings_expire _ _
    · exact (settings_push _ _).trans (settings_expire _ _)
  | advanceTrainingJobRound t m round version =>
    simp only [perform, written, advanceTrainingJobRound]
    split
    · rfl
    · exact settings_push _ _
  | upsertWorker record =>
    simp only [perform, written, upsertWorker]
    split
    · exact settings_push _ _
    · exact settings_push _ _
  | leaseWorkerTask worker assignment job dataset =>
    simp only [perform, written, leaseWorkerTask]
    split
    · rfl
    · exact settings_push _ _
  | updateWorkerTaskStatus workerId taskId status detail progressPercent =>
    simp only [perform, written, updateWorkerTaskStatus]
    split
    · rfl
    split
    · rfl
    · exact settings_push _ _
  | recordWorkerHeartbeat workerId activeTaskId detail =>
    simp only [perform, written, recordWorkerHeartbeat]
    split
    · rfl
    · dsimp only
      split
      · rfl
      · exact settings_push _ _

theorem perform_clients_same {s : StateStore} {now : ℕ} {op : Operation}
    (hrecord : ∀ record, op ≠ .recordClientRegistration record)
    (hround : ∀ t m c round, op ≠ .updateClientLastRound t m c round) :
    (perform s now op).store.clients = s.clients := by
  cases op with
  | recordClientRegistration record => exact absurd rfl (hrecord record)
  | updateClientLastRound t m c round => exact absurd rfl (hround t m c round)
  | recordWeightSubmission t m c round => exact (recordWeightSubmission_frame s t m c round now).2.1
  | recordAggregatedModel t m round path strategy keyVersion clientCount weightDimension =>
    exact (recordAggregatedModel_frame s t m round path strategy keyVersion clientCount
      weightDimension now).2
  | rollbackModel t m targetVersion => exact (rollbackModel_frame s t m targetVersion now).2
  | updateActiveKeyVersion version => exact (updateActiveKeyVersion_frame s version now).2.1
  | recordAuditEvent event => exact (recordAuditEvent_frame s event now).2.1
  | upsertDataset record => exact (upsertDataset_frame s record now).2.1
  | createTrainingJob record => exact (createTrainingJob_frame s record now).1
  | leaseTrainingAssignment t m c version minClients ttl =>
    exact (leaseTrainingAssignment_frame s t m c version minClients ttl now).1
  | validateTrainingAssignmentSubmission t m c jobId id round version =>
    exact (validateTrainingAssignmentSubmission_frame s t m c jobId id round version now).1
  | acceptTrainingAssignmentSubmission t m c jobId id round version =>
    exact (acceptTrainingAssignmentSubmission_frame s t m c jobId id round version now).1
  | advanceTrainingJobRound t m round version =>
    exact (advanceTrainingJobRound_frame s t m round version now).1
  | upsertWorker record => exact (upsertWorker_frame s record now).2.1
  | leaseWorkerTask worker assignment job dataset =>
    exact (leaseWorkerTask_frame s worker assignment job dataset now).2.1
  | updateWorkerTaskStatus workerId taskId status detail progressPercent =>
    exact (updateWorkerTaskStatus_frame s workerId taskId status detail progressPercent now).2.1
  | recordWorkerHeartbeat workerId activeTaskId detail =>
    exact (recordWorkerHeartbeat_frame s workerId activeTaskId detail now).2.1

theorem perform_clients {s : StateStore} (h : ∀ c ∈ s.clients, InNormalScope c.tenantId c.modelId)
    (now : ℕ) (op : Operation) :
    ∀ c ∈ (perform s now op).store.clients, InNormalScope c.tenantId c.modelId := by
  by_cases hrecord : ∃ record, op = .recordClientRegistration record
  · obtain ⟨record, rfl⟩ := hrecord
    simp only [perform, written, recordClientRegistration]
    split
    · exact forall_updateFirst h (fun _ hc => hc)
    · exact forall_append_one h (inNormalScope_normalize _ _)
  by_cases hround : ∃ t m c round, op = .updateClientLastRound t m c round
  · obtain ⟨t, m, c, round, rfl⟩ := hround
    exact forall_updateFirst h (fun _ hc => hc)
  · push Not at hrecord hround
    rw [perform_clients_same hrecord hround]
    exact h

/-- What an operation does to the models and their count. -/
inductive RegistryStep (s : StateStore) (now : ℕ) : Operation → StateStore → Prop
  | kept {op : Operation} {s' : StateStore} (hmodels : s'.models = s.models)
      (hcount : s'.completedRounds = s.completedRounds) (hnone : activation s now op = []) :
      RegistryStep s now op s'
  | recorded {t m : String} {round : ℤ} {path strategy : String}
      {keyVersion clientCount weightDimension : ℤ} :
      RegistryStep s now (.recordAggregatedModel t m round path strategy keyVersion clientCount
        weightDimension) (recordAggregatedModel s t m round path strategy keyVersion clientCount
        weightDimension now).store
  | rolledBack {t m : String} {targetVersion : ℤ} :
      RegistryStep s now (.rollbackModel t m targetVersion)
        (rollbackModel s t m targetVersion now).store

@[simp] theorem push_completedRounds (s : StateStore) (event : PersistedAuditEvent) :
    (pushAuditEvent s event).completedRounds = s.completedRounds :=
  (records_eq (records_push s event)).2.2.2.2.2.2

@[simp] theorem expire_completedRounds (s : StateStore) (now : String) :
    (expireAssignmentsLocked s now).completedRounds = s.completedRounds :=
  (records_eq (records_expire s now)).2.2.2.2.2.2

theorem lease_completedRounds (s : StateStore) (t m c : String) (v n ttl : ℤ) (now : ℕ) :
    (leaseTrainingAssignment s t m c v n ttl now).store.completedRounds = s.completedRounds ∧
    (leaseTrainingAssignment s t m c v n ttl now).store.datasets = s.datasets ∧
    (leaseTrainingAssignment s t m c v n ttl now).store.workers = s.workers ∧
    (leaseTrainingAssignment s t m c v n ttl now).store.workerTasks = s.workerTasks := by
  unfold leaseTrainingAssignment
  dsimp only
  split
  · simp
  split
  · simp [updateActiveTrainingJob]
  · rcases grantLease_cases (updateActiveTrainingJob (expireAssignmentsLocked s
      (currentTimestamp now)) t m (fun _ => runningJob (currentTimestamp now) _)) _ t m c v n ttl
      now with h | ⟨event, h⟩
    · rw [h]
      simp [updateActiveTrainingJob]
    · rw [h]
      simp [updateActiveTrainingJob]

theorem perform_registryStep (s : StateStore) (now : ℕ) (op : Operation) :
    RegistryStep s now op (perform s now op).store := by
  cases op with
  | recordClientRegistration record => exact .kept rfl rfl rfl
  | updateClientLastRound t m c round => exact .kept rfl rfl rfl
  | recordWeightSubmission t m c round =>
    exact .kept (recordWeightSubmission_frame s t m c round now).2.2
      (push_completedRounds _ _) rfl
  | recordAggregatedModel t m round path strategy keyVersion clientCount weightDimension =>
    exact .recorded
  | rollbackModel t m targetVersion => exact .rolledBack
  | updateActiveKeyVersion version =>
    refine .kept (updateActiveKeyVersion_frame s version now).2.2 ?_ rfl
    simp only [perform, written, updateActiveKeyVersion]
    split
    · rfl
    · simp
  | recordAuditEvent event =>
    exact .kept (recordAuditEvent_frame s event now).2.2 (push_completedRounds _ _) rfl
  | upsertDataset record =>
    exact .kept (upsertDataset_frame s record now).2.2 (push_completedRounds _ _) rfl
  | createTrainingJob record =>
    exact .kept (createTrainingJob_frame s record now).2 (push_completedRounds _ _) rfl
  | leaseTrainingAssignment t m c version minClients ttl =>
    exact .kept (leaseTrainingAssignment_frame s t m c version minClients ttl now).2
      (lease_completedRounds s t m c version minClients ttl now).1 rfl
  | validateTrainingAssignmentSubmission t m c jobId id round version =>
    refine .kept (validateTrainingAssignmentSubmission_frame s t m c jobId id round version now).2
      ?_ rfl
    simp only [perform, written, validateTrainingAssignmentSubmission]
    split <;> simp [updateAssignment]
  | acceptTrainingAssignmentSubmission t m c jobId id round version =>
    refine .kept (acceptTrainingAssignmentSubmission_frame s t m c jobId id round version now).2
      ?_ rfl
    simp only [perform, written, acceptTrainingAssignmentSubmission]
    split <;> simp [updateAssignment]
  | advanceTrainingJobRound t m round version =>
    refine .kept (advanceTrainingJobRound_frame s t m round version now).2 ?_ rfl
    simp only [perform, written, advanceTrainingJobRound]
    split
    · rfl
    · simp [updateActiveTrainingJob]
  | upsertWorker record =>
    exact .kept (upsertWorker_frame s record now).2.2 (push_completedRounds _ _) rfl
  | leaseWorkerTask worker assignment job dataset =>
    refine .kept (leaseWorkerTask_frame s worker assignment job dataset now).2.2 ?_ rfl
    simp only [perform, written, leaseWorkerTask]
    split
    · rfl
    · simp
  | updateWorkerTaskStatus workerId taskId status detail progressPercent =>
    refine .kept (updateWorkerTaskStatus_frame s workerId taskId status detail progressPercent
      now).2.2 ?_ rfl
    simp only [perform, written, updateWorkerTaskStatus]
    split
    · rfl
    · split
      · rfl
      · simp
  | recordWorkerHeartbeat workerId activeTaskId detail =>
    refine .kept (recordWorkerHeartbeat_frame s workerId activeTaskId detail now).2.2 ?_ rfl
    simp only [perform, written, recordWorkerHeartbeat]
    split
    · rfl
    · split
      · rfl
      · simp

theorem perform_models_same {s : StateStore} {now : ℕ} {op : Operation}
    (hrecord : ∀ t m round path strategy keyVersion clientCount weightDimension,
      op ≠ .recordAggregatedModel t m round path strategy keyVersion clientCount weightDimension)
    (hrollback : ∀ t m targetVersion, op ≠ .rollbackModel t m targetVersion) :
    (perform s now op).store.models = s.models := by
  have hstep := perform_registryStep s now op
  generalize (perform s now op).store = s' at hstep ⊢
  cases hstep with
  | kept hmodels _ _ => exact hmodels
  | recorded => exact absurd rfl (hrecord _ _ _ _ _ _ _ _)
  | rolledBack => exact absurd rfl (hrollback _ _ _)

theorem record_models (s : StateStore) (t m : String) (round : ℤ) (path strategy : String)
    (keyVersion clientCount weightDimension : ℤ) (now : ℕ) :
    (recordAggregatedModel s t m round path strategy keyVersion clientCount weightDimension
      now).store.models = s.models.map (deactivate (normalizeTenant t) (normalizeModel m)) ++
        [⟨normalizeTenant t, normalizeModel m,
          nextVersion s.models (normalizeTenant t) (normalizeModel m), round, path, strategy,
          keyVersion, clientCount, weightDimension, true, currentTimestamp now⟩] :=
  (pushAuditEvent_frame _ _).2.2.2

theorem rollback_models (s : StateStore) (t m : String) (targetVersion : ℤ) (now : ℕ) :
    (rollbackModel s t m targetVersion now).store.models =
      if (s.models.find? (isVersionOf (normalizeTenant t) (normalizeModel m) targetVersion)).isSome
      then updateFirst (isVersionOf (normalizeTenant t) (normalizeModel m) targetVersion)
        (fun m => { m with active := true })
        (s.models.map (deactivate (normalizeTenant t) (normalizeModel m)))
      else s.models := by
  unfold rollbackModel
  dsimp only
  cases hfound : s.models.find? (isVersionOf (normalizeTenant t) (normalizeModel m)
      targetVersion) with
  | none => rfl
  | some target => exact (pushAuditEvent_frame _ _).2.2.2

theorem deactivate_scope (t m : String) (x : PersistedModelRecord) :
    (deactivate t m x).tenantId = x.tenantId ∧ (deactivate t m x).modelId = x.modelId ∧
      (deactivate t m x).version = x.version := by
  unfold deactivate
  split <;> exact ⟨rfl, rfl, rfl⟩

theorem perform_models {s : StateStore} (h : ∀ m ∈ s.models, InNormalScope m.tenantId m.modelId)
    (now : ℕ) (op : Operation) :
    ∀ m ∈ (perform s now op).store.models, InNormalScope m.tenantId m.modelId := by
  have hdeactivated : ∀ t m, ∀ x ∈ s.models.map (deactivate t m),
      InNormalScope x.tenantId x.modelId := by
    intro t m
    apply forall_map h
    intro x hx
    rw [(deactivate_scope t m x).1, (deactivate_scope t m x).2.1]
    exact hx
  have hstep := perform_registryStep s now op
  generalize (perform s now op).store = s' at hstep ⊢
  cases hstep with
  | kept hmodels _ _ =>
    rw [hmodels]
    exact h
  | recorded =>
    rw [record_models]
    exact forall_append_one (hdeactivated _ _) (inNormalScope_normalize _ _)
  | rolledBack =>
    rw [rollback_models]
    split
    · exact forall_updateFirst (hdeactivated _ _) (fun _ hx => hx)
    · exact h

theorem perform_datasets_same (s : StateStore) (now : ℕ) {op : Operation}
    (hupsert : ∀ record, op ≠ .upsertDataset record) :
    (perform s now op).store.datasets = s.datasets := by
  by_cases hversion : ∃ version, op = .updateActiveKeyVersion version
  · obtain ⟨version, rfl⟩ := hversion
    simp only [perform, written, updateActiveKeyVersion]
    split
    · rfl
    · exact push_datasets _ _
  · have hsettings := perform_settings s now hupsert
      (fun version heq => hversion ⟨version, heq⟩)
    exact congrArg (fun kept => kept.2.1) hsettings

theorem perform_datasets {s : StateStore} (h : ∀ d ∈ s.datasets, InNormalScope d.tenantId d.modelId)
    (now : ℕ) (op : Operation) :
    ∀ d ∈ (perform s now op).store.datasets, InNormalScope d.tenantId d.modelId := by
  by_cases hupsert : ∃ record, op = .upsertDataset record
  · obtain ⟨record, rfl⟩ := hupsert
    simp only [perform, written, upsertDataset, push_datasets]
    split
    · exact forall_append_one h (inNormalScope_normalize _ _)
    · exact forall_updateFirst h (fun _ _ => inNormalScope_normalize _ _)
  · rw [perform_datasets_same s now (fun record heq => hupsert ⟨record, heq⟩)]
    exact h

theorem workers_accept {P : PersistedWorkerRecord → Prop} {now : String}
    (hP : ∀ id w, P w → P (releaseWorker now id w)) {workers : List PersistedWorkerRecord}
    (h : ∀ w ∈ workers, P w) (tasks : List PersistedWorkerTaskRecord) :
    ∀ w ∈ tasks.foldl (fun workers task => updateFirst (fun w => w.workerId == task.workerId)
      (releaseWorker now task.taskId) workers) workers, P w := by
  induction tasks generalizing workers with
  | nil => exact h
  | cons task tasks ih => exact ih (forall_updateFirst h (hP task.taskId))

theorem workers_advance {P : PersistedWorkerRecord → Prop} {now : String}
    (hP : ∀ id w, P w → P (releaseWorker now id w)) {workers : List PersistedWorkerRecord}
    (h : ∀ w ∈ workers, P w) (tasks : List PersistedWorkerTaskRecord) :
    ∀ w ∈ tasks.foldl (fun workers task => workers.map (fun w =>
      if w.workerId = task.workerId ∧ w.activeTaskId = task.taskId then
        releaseWorker now task.taskId w else w)) workers, P w := by
  induction tasks generalizing workers with
  | nil => exact h
  | cons task tasks ih =>
    apply ih
    apply forall_map h
    intro w hw
    split
    · exact hP _ w hw
    · exact hw

theorem perform_workers {s : StateStore} (h : ∀ w ∈ s.workers, InNormalScope w.tenantId w.modelId)
    (now : ℕ) (op : Operation) :
    ∀ w ∈ (perform s now op).store.workers, InNormalScope w.tenantId w.modelId := by
  cases op with
  | upsertWorker record =>
    simp only [perform, written, upsertWorker, push_workers]
    split
    · exact forall_append_one h (inNormalScope_normalize _ _)
    · exact forall_updateFirst h (fun _ _ => inNormalScope_normalize _ _)
  | leaseTrainingAssignment t m c version minClients ttl =>
    simpa [perform, written, (lease_completedRounds s t m c version minClients ttl now).2.2.1] using h
  | rollbackModel t m targetVersion =>
    simp only [perform, written, rollbackModel]
    split <;> simpa using h
  | updateActiveKeyVersion version =>
    simp only [perform, written, updateActiveKeyVersion]
    split <;> simpa using h
  | validateTrainingAssignmentSubmission t m c jobId id round version =>
    simp only [perform, written, validateTrainingAssignmentSubmission]
    split <;> simpa [updateAssignment] using h
  | acceptTrainingAssignmentSubmission t m c jobId id round version =>
    simp only [perform, written, acceptTrainingAssignmentSubmission]
    split
    · simpa using h
    · simpa using h
    · simpa [updateAssignment] using h
    · rw [push_workers]
      exact workers_accept (fun _ _ hw => hw) (by simpa [updateAssignment] using h) _
  | advanceTrainingJobRound t m round version =>
    simp only [perform, written, advanceTrainingJobRound]
    split
    · exact h
    · rw [push_workers]
      exact workers_advance (fun _ _ hw => hw) h _
  | leaseWorkerTask worker assignment job dataset =>
    simp only [perform, written, leaseWorkerTask]
    split
    · apply forall_map h
      intro w hw
      split
      · exact hw
      · exact hw
    · rw [push_workers]
      exact forall_updateFirst h (fun _ hw => hw)
  | updateWorkerTaskStatus workerId taskId status detail progressPercent =>
    simp only [perform, written, updateWorkerTaskStatus]
    split
    · exact h
    · split
      · exact h
      · rw [push_workers]
        apply forall_updateFirst h
        intro w hw
        unfold reportToWorker
        dsimp only
        split_ifs <;> exact hw
  | recordWorkerHeartbeat workerId activeTaskId detail =>
    simp only [perform, written, recordWorkerHeartbeat]
    split
    · exact h
    · split
      · apply forall_updateFirst h
        intro w hw
        split_ifs <;> exact hw
      · rw [push_workers]
        apply forall_updateFirst h
        intro w hw
        split_ifs <;> exact hw
  | _ => simpa [perform, written, recordClientRegistration, updateClientLastRound,
      recordWeightSubmission, recordAggregatedModel, recordAuditEvent, createTrainingJob,
      upsertDataset] using h

theorem perform_tidy {s : StateStore} (h : Tidy s) (now : ℕ) (op : Operation) :
    Tidy (perform s now op).store where
  order := perform_orderly h.order now op
  clients := perform_clients h.clients now op
  models := perform_models h.models now op
  datasets := perform_datasets h.datasets now op
  workers := perform_workers h.workers now op

theorem map_normal {α : Type} {f : α → α} {l : List α} (h : ∀ x ∈ l, f x = x) : l.map f = l :=
  (List.map_congr_left h).trans (List.map_id l)

/-- Loading changes nothing but the leases that ran out, the audit log, and
scopes of worker tasks that were not normal. -/
theorem load_fields {image : StateStore} (h : Tidy image) (now : ℕ) :
    (load image now).store.clients = image.clients ∧
    (load image now).store.models = image.models ∧
    (load image now).store.datasets = image.datasets ∧
    (load image now).store.trainingJobs = image.trainingJobs ∧
    (load image now).store.workers = image.workers ∧
    (load image now).store.completedRounds = image.completedRounds ∧
    (load image now).store.assignments = image.assignments.map (lapse (currentTimestamp now)) := by
  obtain ⟨hjobs, hleases⟩ := load_records h.order now
  have hloaded : records (load image now).store = records (normalizedRecords image) := by
    rw [load, records_trim, records_expire]
  obtain ⟨hclients, hmodels, hdatasets, -, hworkers, -, hcount⟩ := records_eq hloaded
  refine ⟨?_, ?_, ?_, hjobs, ?_, hcount, hleases⟩
  · rw [hclients]
    apply map_normal
    intro c hc
    obtain ⟨ht, hm⟩ := h.clients c hc
    rw [ht, hm]
  · rw [hmodels]
    apply map_normal
    intro m hm
    obtain ⟨ht, hm⟩ := h.models m hm
    rw [ht, hm]
  · rw [hdatasets]
    apply map_normal
    intro d hd
    obtain ⟨ht, hm⟩ := h.datasets d hd
    rw [ht, hm]
  · rw [hworkers]
    apply map_normal
    intro w hw
    obtain ⟨ht, hm⟩ := h.workers w hw
    rw [ht, hm]

theorem load_tidy {image : StateStore} (h : Tidy image) (now : ℕ) : Tidy (load image now).store := by
  obtain ⟨hclients, hmodels, hdatasets, -, hworkers, -, -⟩ := load_fields h now
  refine ⟨h.order.move (load_move h.order now), ?_, ?_, ?_, ?_⟩
  · rw [hclients]
    exact h.clients
  · rw [hmodels]
    exact h.models
  · rw [hdatasets]
    exact h.datasets
  · rw [hworkers]
    exact h.workers

/-- The lease in memory, of a lease in the file; it may have run out by now. -/
def Lapsed (clock : ℕ) (a a' : PersistedAssignmentLease) : Prop :=
  a' = a ∨ ∃ t, t ≤ clock ∧ a' = lapse (currentTimestamp t) a

theorem lapse_of_expired {a : PersistedAssignmentLease} (h : a.status = .expired) (now : String) :
    lapse now a = a := by
  simp [lapse, hasLapsed, h]

theorem lapse_cases (now : String) (a : PersistedAssignmentLease) :
    lapse now a = a ∨ (a.status = .leased ∧ a.expiresAt ≤ now ∧ (lapse now a).status = .expired) := by
  unfold lapse
  by_cases h : hasLapsed now a = true
  · rw [if_pos h]
    simp only [hasLapsed, Bool.and_eq_true, beq_iff_eq, decide_eq_true_eq] at h
    exact .inr ⟨h.1.1, h.2, rfl⟩
  · rw [if_neg h]
    exact .inl rfl

theorem Lapsed.sweep {clock now : ℕ} (hle : clock ≤ now) {a a' : PersistedAssignmentLease}
    (h : Lapsed clock a a') : Lapsed now a (lapse (currentTimestamp now) a') := by
  rcases h with rfl | ⟨t, ht, rfl⟩
  · exact .inr ⟨now, le_rfl, rfl⟩
  · rcases lapse_cases (currentTimestamp t) a with hsame | ⟨-, -, hexpired⟩
    · rw [hsame]
      exact .inr ⟨now, le_rfl, rfl⟩
    · rw [lapse_of_expired hexpired]
      exact .inr ⟨t, ht.trans hle, rfl⟩

theorem Lapsed.later {clock now : ℕ} (hle : clock ≤ now) {a a' : PersistedAssignmentLease}
    (h : Lapsed clock a a') : Lapsed now a a' :=
  h.imp id (fun ⟨t, ht, hlapse⟩ => ⟨t, ht.trans hle, hlapse⟩)

theorem lapsed_refl (clock : ℕ) (l : List PersistedAssignmentLease) :
    List.Forall₂ (Lapsed clock) l l := List.forall₂_same.mpr fun _ _ => .inl rfl

/-- The file has the records of the store, but for leases and audit events. -/
structure Backed (p : StoreProcess) : Prop where
  store : Tidy p.store
  disk : Tidy p.disk
  same : records p.disk = records p.store

theorem initial_backed (n : ℕ) : Backed (initial n) := ⟨tidy_empty n, tidy_empty n, rfl⟩

theorem step_backed {p p' : StoreProcess} {a : StoreAction} (h : Backed p)
    (hs : step p a = some p') : Backed p' := by
  cases a with
  | perform op now =>
    obtain rfl := Option.some.inj hs
    have htidy := perform_tidy h.store now op
    cases hsave : (perform p.store now op).save with
    | true => exact ⟨htidy, htidy, rfl⟩
    | false =>
      refine ⟨htidy, h.disk, ?_⟩
      rcases perform_swept hsave with hsame | ⟨hrecords, -⟩
      · rw [hsame]
        exact h.same
      · exact h.same.trans hrecords.symm
  | load now =>
    obtain rfl := Option.some.inj hs
    have htidy := load_tidy h.disk now
    exact ⟨htidy, htidy, rfl⟩

theorem run_backed {ok : StoreProcess → StoreAction → Prop} {n : ℕ} {p : StoreProcess}
    (h : Reaches step ok (initial n) p) : Backed p :=
  h.invariant (initial_backed n) (fun _ _ _ hi _ hs => step_backed hi hs)

/-- While the clock does not go back, the file has the leases of the store, but
for those which ran out. -/
structure Behind (p : StoreProcess) : Prop where
  clock : p.clock < clockEnd
  leases : List.Forall₂ (Lapsed p.clock) p.disk.assignments p.store.assignments

theorem initial_behind (n : ℕ) : Behind (initial n) where
  clock := by
    show 0 < clockEnd
    decide
  leases := .nil

theorem step_behind {p p' : StoreProcess} {a : StoreAction} (h : Behind p) (ha : Timely p a)
    (hs : step p a = some p') : Behind p' := by
  obtain ⟨hle, hend⟩ := ha
  cases a with
  | perform op now =>
    obtain rfl := Option.some.inj hs
    refine ⟨hend, ?_⟩
    cases hsave : (perform p.store now op).save with
    | true => exact lapsed_refl _ _
    | false =>
      rcases perform_swept hsave with hsame | ⟨-, hleases⟩
      · rw [hsame]
        exact h.leases.imp (fun _ _ hl => hl.later hle)
      · rw [hleases]
        exact List.forall₂_map_right_iff.mpr (h.leases.imp (fun _ _ hl => hl.sweep hle))
  | load now =>
    obtain rfl := Option.some.inj hs
    exact ⟨hend, lapsed_refl _ _⟩

/-- The rule for the file: what the store has after a step, and the file had before
it, the file has afterwards. -/
theorem step_onDisk {I : StateStore → Prop} {p p' : StoreProcess} {a : StoreAction}
    (hs : step p a = some p') (hstore : I p'.store) (hdisk : I p.disk) : I p'.disk := by
  cases a with
  | perform op now =>
    obtain rfl := Option.some.inj hs
    dsimp only
    split
    · exact hstore
    · exact hdisk
  | load now =>
    obtain rfl := Option.some.inj hs
    exact hstore

theorem step_cases {p p' : StoreProcess} {a : StoreAction} (h : step p a = some p') :
    (∃ op now, a = .perform op now ∧ p'.store = (perform p.store now op).store ∧
      p'.activated = p.activated ++ activation p.store now op) ∨
    (∃ now, a = .load now ∧ p'.store = (load p.disk now).store ∧ p'.activated = p.activated) := by
  cases a with
  | perform op now =>
    obtain rfl := Option.some.inj h
    exact .inl ⟨op, now, rfl, rfl, rfl⟩
  | load now =>
    obtain rfl := Option.some.inj h
    exact .inr ⟨now, rfl, rfl, rfl⟩

theorem load_backed {p : StoreProcess} (h : Backed p) (now : ℕ) :
    (load p.disk now).store.models = p.store.models ∧
    (load p.disk now).store.completedRounds = p.store.completedRounds ∧
    (load p.disk now).store.trainingJobs = p.store.trainingJobs := by
  obtain ⟨-, hmodels, -, hjobs, -, hcount, -⟩ := load_fields h.disk now
  obtain ⟨-, hmodels', -, hjobs', -, -, hcount'⟩ := records_eq h.same
  exact ⟨hmodels.trans hmodels', hcount.trans hcount', hjobs.trans hjobs'⟩

end PqFl.StoreRuns
