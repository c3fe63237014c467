import PqFl.LeaseLifecycle

/-!
# What the operations do to workers and their tasks

Assignments, worker tasks and workers are three lists which are linked by id
only. Every operation is told here once by what it writes to the three.
-/

set_option autoImplicit false

namespace PqFl.WorkerSteps
open PqFl.Identifiers PqFl.Timestamps PqFl.StoreRecords PqFl.StateStore PqFl.ListUpdate
open PqFl.JobLedger PqFl.StoreRuns PqFl.LeaseLifecycle

def submitAssignment (now : String) (a : PersistedAssignmentLease) : PersistedAssignmentLease :=
  { a with status := .submitted, updatedAt := now, detail := "Client submitted weights" }

def newWorkerTask (worker : PersistedWorkerRecord) (assignment : PersistedAssignmentLease)
    (job : PersistedTrainingJobRecord) (dataset : PersistedDatasetRecord) (now : String) :
    PersistedWorkerTaskRecord where
  taskId := assignment.assignmentId ++ "::worker:" ++ worker.workerId
  workerId := worker.workerId
  trainerClientId := worker.trainerClientId
  jobId := job.jobId
  assignmentId := assignment.assignmentId
  tenantId := assignment.tenantId
  modelId := assignment.modelId
  datasetId := dataset.datasetId
  roundIndex := assignment.roundIndex
  baseModelVersion := assignment.baseModelVersion
  status := .leased
  detail := "Worker task leased"
  progressPercent := 0
  issuedAt := now
  startedAt := ""
  completedAt := ""
  updatedAt := now

def isTaskFor (assignmentId workerId : String) (task : PersistedWorkerTaskRecord) : Bool :=
  task.assignmentId == assignmentId && task.workerId == workerId

def reportedTask (task : PersistedWorkerTaskRecord) (status : TaskStatus) (detail : String)
    (progressPercent : ℤ) (now : String) : PersistedWorkerTaskRecord :=
  { task with
    status := status
    detail := detail
    progressPercent := max 0 (min 100 progressPercent)
    updatedAt := now
    startedAt := if status = .running ∧ task.startedAt = "" then now else task.startedAt
    completedAt := if isFinalReport status ∧ task.completedAt = "" then now
      else task.completedAt }

/-- The worker as a heartbeat leaves it. -/
def beatWorker (activeTaskId now : String) (w : PersistedWorkerRecord) : PersistedWorkerRecord :=
  if activeTaskId ≠ "" then
    { w with lastHeartbeatAt := now, activeTaskId := activeTaskId, status := .busy }
  else if w.status ≠ .leased then { w with lastHeartbeatAt := now, status := .idle }
  else { w with lastHeartbeatAt := now }

/-- The worker whose registration is saved, over the one that is known. -/
def savedWorker (existing : Option PersistedWorkerRecord) (record : PersistedWorkerRecord)
    (now : ℕ) : PersistedWorkerRecord :=
  let registeredAt := if record.registeredAt = "" then currentTimestamp now
    else record.registeredAt
  { record with
    tenantId := normalizeTenant record.tenantId
    modelId := normalizeModel record.modelId
    maxParallelTasks := max 1 record.maxParallelTasks
    registeredAt := (existing.map (·.registeredAt)).getD registeredAt
    lastHeartbeatAt := if record.lastHeartbeatAt = "" then registeredAt
      else record.lastHeartbeatAt
    activeTaskId := if record.activeTaskId = "" then (existing.map (·.activeTaskId)).getD ""
      else record.activeTaskId }

def releaseAll (now : String) (tasks : List PersistedWorkerTaskRecord)
    (workers : List PersistedWorkerRecord) : List PersistedWorkerRecord :=
  tasks.foldl (fun workers task => updateFirst (fun w => w.workerId == task.workerId)
    (releaseWorker now task.taskId) workers) workers

def releaseActive (now : String) (tasks : List PersistedWorkerTaskRecord)
    (workers : List PersistedWorkerRecord) : List PersistedWorkerRecord :=
  tasks.foldl (fun workers task => workers.map (fun w =>
    if w.workerId = task.workerId ∧ w.activeTaskId = task.taskId then
      releaseWorker now task.taskId w else w)) workers

/-- The operations which first expire leases. -/
def sweeps : Operation → Bool
  | .leaseTrainingAssignment _ _ _ _ _ _ => true
  | .validateTrainingAssignmentSubmission _ _ _ _ _ _ _ => true
  | .acceptTrainingAssignmentSubmission _ _ _ _ _ _ _ => true
  | _ => false

/-- The lease which an operation may grant. -/
def Grants (s : StateStore) (now : ℕ) : Operation → PersistedAssignmentLease → Prop
  | .leaseTrainingAssignment t m c version _ ttl, a =>
    ∃ job, getActiveTrainingJob s t m = some job ∧ a = newLease job t m c version ttl now
  | _, _ => False

/-- What an operation writes to assignments, tasks and workers. -/
inductive TaskStep (s : StateStore) (now : ℕ) : Operation → StateStore → Prop
  | kept {op : Operation} {s' : StateStore} (hassignments : s'.assignments = s.assignments)
      (htasks : s'.workerTasks = s.workerTasks) (hworkers : s'.workers = s.workers) :
      TaskStep s now op s'
  | swept {op : Operation} {s' : StateStore} (hop : sweeps op = true)
      (granted : List PersistedAssignmentLease) (hgranted : ∀ a ∈ granted, Grants s now op a)
      (hassignments : s'.assignments =
        s.assignments.map (lapse (currentTimestamp now)) ++ granted)
      (htasks : s'.workerTasks = s.workerTasks) (hworkers : s'.workers = s.workers) :
      TaskStep s now op s'
  | accepted {t m c jobId id : String} {r v : ℤ} {s' : StateStore} {x : PersistedAssignmentLease}
      (hcheck : checkTrainingAssignmentSubmission (expireAssignmentsLocked s (currentTimestamp now))
        t m c jobId id r v (currentTimestamp now) = .passed x)
      (hfound : (s.assignments.map (lapse (currentTimestamp now))).find?
        (fun a => a.assignmentId == id) = some x)
      (hleased : x.status = .leased)
      (hassignments : s'.assignments = updateFirst (fun a => a.assignmentId == id)
        (submitAssignment (currentTimestamp now)) (s.assignments.map (lapse (currentTimestamp now))))
      (htasks : s'.workerTasks = s.workerTasks.map (fun task =>
        if task.assignmentId = id then submitTask (currentTimestamp now) task else task))
      (hworkers : s'.workers = releaseAll (currentTimestamp now)
        (s.workerTasks.filter (fun task => task.assignmentId == id)) s.workers) :
      TaskStep s now (.acceptTrainingAssignmentSubmission t m c jobId id r v) s'
  | advanced {t m : String} {r v : ℤ} {s' : StateStore} {job : PersistedTrainingJobRecord}
      (hjob : getActiveTrainingJob s t m = some job)
      (hassignments : s'.assignments =
        s.assignments.map (closeAssignment job.jobId r (currentTimestamp now)))
      (htasks : s'.workerTasks = s.workerTasks.map (fun task =>
        if isTaskOf job.jobId r task then closeTask (currentTimestamp now) task else task))
      (hworkers : s'.workers = releaseActive (currentTimestamp now)
        (s.workerTasks.filter (isTaskOf job.jobId r)) s.workers) :
      TaskStep s now (.advanceTrainingJobRound t m r v) s'
  | added {record : PersistedWorkerRecord} {s' : StateStore}
      (hnew : s.workers.find? (fun w => w.workerId == record.workerId) = none)
      (hassignments : s'.assignments = s.assignments) (htasks : s'.workerTasks = s.workerTasks)
      (hworkers : s'.workers = s.workers ++ [savedWorker none record now]) :
      TaskStep s now (.upsertWorker record) s'
  | registeredAgain {record existing : PersistedWorkerRecord} {s' : StateStore}
      (hknown : s.workers.find? (fun w => w.workerId == record.workerId) = some existing)
      (hassignments : s'.assignments = s.assignments) (htasks : s'.workerTasks = s.workerTasks)
      (hworkers : s'.workers = updateFirst (fun w => w.workerId == record.workerId)
        (fun _ => savedWorker (some existing) record now) s.workers) :
      TaskStep s now (.upsertWorker record) s'
  | leasedAgain {worker : PersistedWorkerRecord} {assignment : PersistedAssignmentLease}
      {job : PersistedTrainingJobRecord} {dataset : PersistedDatasetRecord} {s' : StateStore}
      {task : PersistedWorkerTaskRecord}
      (hknown : s.workerTasks.find? (isTaskFor assignment.assignmentId worker.workerId) = some task)
      (hassignments : s'.assignments = s.assignments)
      (htasks : s'.workerTasks = updateFirst (isTaskFor assignment.assignmentId worker.workerId)
        (fun _ => { task with updatedAt := currentTimestamp now }) s.workerTasks)
      (hworkers : s'.workers = s.workers.map (fun w => if w.workerId == worker.workerId then
        occupyWorker (currentTimestamp now) task.taskId w else w)) :
      TaskStep s now (.leaseWorkerTask worker assignment job dataset) s'
  | leased {worker : PersistedWorkerRecord} {assignment : PersistedAssignmentLease}
      {job : PersistedTrainingJobRecord} {dataset : PersistedDatasetRecord} {s' : StateStore}
      (hnew : s.workerTasks.find? (isTaskFor assignment.assignmentId worker.workerId) = none)
      (hassignments : s'.assignments = s.assignments)
      (htasks : s'.workerTasks = s.workerTasks ++
        [newWorkerTask worker assignment job dataset (currentTimestamp now)])
      (hworkers : s'.workers = updateFirst (fun w => w.workerId == worker.workerId)
        (occupyWorker (currentTimestamp now)
          (newWorkerTask worker assignment job dataset (currentTimestamp now)).taskId) s.workers) :
      TaskStep s now (.leaseWorkerTask worker assignment job dataset) s'
  | reported {workerId taskId detail : String} {status : Option TaskStatus} {progressPercent : ℤ}
      {s' : StateStore} {task : PersistedWorkerTaskRecord}
      (hfound : s.workerTasks.find? (fun task => task.taskId == taskId) = some task)
      (hown : task.workerId = workerId) (hassignments : s'.assignments = s.assignments)
      (htasks : s'.workerTasks = updateFirst (fun task => task.taskId == taskId)
        (fun _ => reportedTask task (status.getD task.status) detail progressPercent
          (currentTimestamp now)) s.workerTasks)
      (hworkers : s'.workers = updateFirst (fun w => w.workerId == workerId)
        (reportToWorker (currentTimestamp now) (reportedTask task (status.getD task.status) detail
          progressPercent (currentTimestamp now))) s.workers) :
      TaskStep s now (.updateWorkerTaskStatus workerId taskId status detail progressPercent) s'
  | beat {workerId activeTaskId detail : String} {s' : StateStore}
      (hassignments : s'.assignments = s.assignments) (htasks : s'.workerTasks = s.workerTasks)
      (hworkers : s'.workers = updateFirst (fun w => w.workerId == workerId)
        (beatWorker activeTaskId (currentTimestamp now)) s.workers) :
      TaskStep s now (.recordWorkerHeartbeat workerId activeTaskId detail) s'

theorem swept_not_lapsed (now : String) (a : PersistedAssignmentLease) :
    hasLapsed now (lapse now a) = false := by
  unfold lapse
  by_cases h : hasLapsed now a = true
  · rw [if_pos h]
    rfl
  · rw [if_neg h]
    simpa using h

theorem check_after_sweep (s : StateStore) (t m c jobId id : String) (r v : ℤ) (now : String) :
    checkTrainingAssignmentSubmission (expireAssignmentsLocked s now) t m c jobId id r v now ≠
      .lapsed := by
  intro h
  have hchecked := check_checked (expireAssignmentsLocked s now) t m c jobId id r v now
  rw [h] at hchecked
  cases hchecked with
  | lapsed ha hstatus htime =>
    rw [leaseNamed_expire] at ha
    obtain ⟨x, -, rfl⟩ := Option.map_eq_some_iff.mp ha
    have hlapsed := swept_not_lapsed now x
    simp [hasLapsed, hstatus, htime.1, htime.2] at hlapsed

theorem newLease_runningJob (job : PersistedTrainingJobRecord) (time t m c : String) (v ttl : ℤ)
    (now : ℕ) : newLease (runningJob time job) t m c v ttl now = newLease job t m c v ttl now := by
  unfold runningJob
  split
  · rfl
  · rfl

theorem lease_assignments (s : StateStore) (t m c : String) (v n ttl : ℤ) (now : ℕ) :
    ∃ granted, (∀ a ∈ granted, Grants s now (.leaseTrainingAssignment t m c v n ttl) a) ∧
      (leaseTrainingAssignment s t m c v n ttl now).store.assignments =
        s.assignments.map (lapse (currentTimestamp now)) ++ granted := by
  obtain ⟨hjobs, hexpire, -, -⟩ := expireAssignmentsLocked_frame s (currentTimestamp now)
  have hnone : ∀ a ∈ [], Grants s now (.leaseTrainingAssignment t m c v n ttl) a := by simp
  unfold leaseTrainingAssignment
  dsimp only
  split
  · exact ⟨[], hnone, by rw [List.append_nil, hexpire]⟩
  rename_i job hjob
  split
  · exact ⟨[], hnone, by rw [List.append_nil, updateActiveTrainingJob, hexpire]⟩
  · rcases grantLease_cases (updateActiveTrainingJob (expireAssignmentsLocked s
      (currentTimestamp now)) t m (fun _ => runningJob (currentTimestamp now) job)) _ t m c v n ttl
      now with h | ⟨event, h⟩
    · rw [h]
      exact ⟨[], hnone, by rw [List.append_nil, updateActiveTrainingJob, hexpire]⟩
    · rw [h, (pushAuditEvent_frame _ _).2.1]
      refine ⟨_, ?_, by rw [updateActiveTrainingJob, hexpire]⟩
      intro a ha
      rw [List.mem_singleton] at ha
      rw [getActiveTrainingJob, hjobs] at hjob
      exact ⟨job, hjob, ha.trans (newLease_runningJob job _ t m c v ttl now)⟩

theorem jobRecords_assignments {s s' : StateStore} (h : jobRecords s' = jobRecords s) :
    s'.assignments = s.assignments := congrArg Prod.snd h

theorem validate_taskStep (s : StateStore) (t m c jobId id : String) (r v : ℤ) (now : ℕ) :
    TaskStep s now (.validateTrainingAssignmentSubmission t m c jobId id r v)
      (validateTrainingAssignmentSubmission s t m c jobId id r v now).store := by
  have hsame : (validateTrainingAssignmentSubmission s t m c jobId id r v now).store =
      expireAssignmentsLocked s (currentTimestamp now) := by
    unfold validateTrainingAssignmentSubmission
    dsimp only
    split
    · rfl
    · rfl
    · rename_i hcheck
      exact absurd hcheck (check_after_sweep s t m c jobId id r v _)
    · rfl
  rw [hsame]
  apply TaskStep.swept rfl [] (by simp)
  · rw [List.append_nil, (expireAssignmentsLocked_frame s _).2.1]
  · exact expire_workerTasks s _
  · exact expire_workers s _

theorem accept_taskStep (s : StateStore) (t m c jobId id : String) (r v : ℤ) (now : ℕ) :
    TaskStep s now (.acceptTrainingAssignmentSubmission t m c jobId id r v)
      (acceptTrainingAssignmentSubmission s t m c jobId id r v now).store := by
  have hexpire := (expireAssignmentsLocked_frame s (currentTimestamp now)).2.1
  cases hcheck : checkTrainingAssignmentSubmission (expireAssignmentsLocked s (currentTimestamp now))
      t m c jobId id r v (currentTimestamp now) with
  | noActiveJob =>
    simp only [acceptTrainingAssignmentSubmission, hcheck]
    exact .swept rfl [] (by simp) (by rw [List.append_nil, hexpire]) (expire_workerTasks s _)
      (expire_workers s _)
  | refused errorMessage =>
    simp only [acceptTrainingAssignmentSubmission, hcheck]
    exact .swept rfl [] (by simp) (by rw [List.append_nil, hexpire]) (expire_workerTasks s _)
      (expire_workers s _)
  | lapsed => exact absurd hcheck (check_after_sweep s t m c jobId id r v _)
  | passed x =>
    obtain ⟨-, -, -, -, hx, -, hleased⟩ := check_passed hcheck
    have hid : x.assignmentId = id := by simpa using List.find?_some hx
    rw [leaseNamed, hexpire] at hx
    simp only [acceptTrainingAssignmentSubmission, hcheck]
    apply TaskStep.accepted hcheck hx hleased
    · rw [(pushAuditEvent_frame _ _).2.1]
      simp only [updateAssignment, hexpire]
      rfl
    · rw [push_workerTasks]
      simp only [updateAssignment, expire_workerTasks, hid, beq_iff_eq]
    · rw [push_workers]
      simp only [updateAssignment, expire_workerTasks, expire_workers, hid]
      rfl

theorem advance_fields {s : StateStore} {t m : String} {job : PersistedTrainingJobRecord}
    (hjob : getActiveTrainingJob s t m = some job) (r v : ℤ) (now : ℕ) :
    (advanceTrainingJobRound s t m r v now).store.assignments =
      s.assignments.map (closeAssignment job.jobId r (currentTimestamp now)) ∧
    (advanceTrainingJobRound s t m r v now).store.workerTasks = s.workerTasks.map (fun task =>
      if isTaskOf job.jobId r task then closeTask (currentTimestamp now) task else task) ∧
    (advanceTrainingJobRound s t m r v now).store.workers = releaseActive (currentTimestamp now)
      (s.workerTasks.filter (isTaskOf job.jobId r)) s.workers := by
  simp only [advanceTrainingJobRound, hjob]
  rw [(pushAuditEvent_frame _ _).2.1, push_workerTasks, push_workers]
  exact ⟨rfl, rfl, rfl⟩

theorem advance_taskStep (s : StateStore) (t m : String) (r v : ℤ) (now : ℕ) :
    TaskStep s now (.advanceTrainingJobRound t m r v)
      (advanceTrainingJobRound s t m r v now).store := by
  cases hjob : getActiveTrainingJob s t m with
  | none =>
    simp only [advanceTrainingJobRound, hjob]
    exact .kept rfl rfl rfl
  | some job =>
    obtain ⟨hassignments, htasks, hworkers⟩ := advance_fields hjob r v now
    exact .advanced hjob hassignments htasks hworkers

theorem upsertWorker_taskStep (s : StateStore) (record : PersistedWorkerRecord) (now : ℕ) :
    TaskStep s now (.upsertWorker record) (upsertWorker s record now).store := by
  have hassignments := jobRecords_assignments (upsertWorker_frame s record now).1
  cases hfind : s.workers.find? (fun w => w.workerId == record.workerId) with
  | none =>
    refine .added hfind hassignments ?_ ?_
    · simp [upsertWorker]
    · have hactive : (if record.activeTaskId = "" then "" else record.activeTaskId) =
          record.activeTaskId := by
        split
        · rename_i hempty
          exact hempty.symm
        · rfl
      simp only [upsertWorker, hfind, push_workers, savedWorker, Option.map_none, Option.getD_none,
        hactive]
  | some existing =>
    refine .registeredAgain hfind hassignments ?_ ?_
    · simp [upsertWorker]
    · simp only [upsertWorker, hfind, push_workers]
      rfl

theorem leaseWorkerTask_taskStep (s : StateStore) (worker : PersistedWorkerRecord)
    (assignment : PersistedAssignmentLease) (job : PersistedTrainingJobRecord)
    (dataset : PersistedDatasetRecord) (now : ℕ) :
    TaskStep s now (.leaseWorkerTask worker assignment job dataset)
      (leaseWorkerTask s worker assignment job dataset now).store := by
  have hassignments := jobRecords_assignments (leaseWorkerTask_frame s worker assignment job dataset
    now).1
  cases hfind : s.workerTasks.find? (isTaskFor assignment.assignmentId worker.workerId) with
  | some task =>
    have hfind' := hfind
    unfold isTaskFor at hfind'
    refine .leasedAgain hfind hassignments ?_ ?_
    · simp only [leaseWorkerTask, hfind']
      rfl
    · simp only [leaseWorkerTask, hfind']
  | none =>
    have hfind' := hfind
    unfold isTaskFor at hfind'
    refine .leased hfind hassignments ?_ ?_
    · simp only [leaseWorkerTask, hfind', push_workerTasks]
      rfl
    · simp only [leaseWorkerTask, hfind', push_workers]
      rfl

theorem updateWorkerTaskStatus_taskStep (s : StateStore) (workerId taskId : String)
    (status : Option TaskStatus) (detail : String) (progressPercent : ℤ) (now : ℕ) :
    TaskStep s now (.updateWorkerTaskStatus workerId taskId status detail progressPercent)
      (updateWorkerTaskStatus s workerId taskId status detail progressPercent now).store := by
  have hassignments := jobRecords_assignments (updateWorkerTaskStatus_frame s workerId taskId status
    detail progressPercent now).1
  cases hfind : s.workerTasks.find? (fun task => task.taskId == taskId) with
  | none =>
    simp only [updateWorkerTaskStatus, hfind]
    exact .kept rfl rfl rfl
  | some task =>
    by_cases hown : task.workerId = workerId
    · subst hown
      refine .reported hfind rfl hassignments ?_ ?_
      · simp only [updateWorkerTaskStatus, hfind, ne_eq, not_true_eq_false, if_false,
          push_workerTasks]
        rfl
      · simp only [updateWorkerTaskStatus, hfind, ne_eq, not_true_eq_false, if_false,
          push_workers]
        rfl
    · simp only [updateWorkerTaskStatus, hfind, hown, ne_eq, not_false_eq_true, if_true]
      exact .kept rfl rfl rfl

theorem recordWorkerHeartbeat_taskStep (s : StateStore) (workerId activeTaskId detail : String)
    (now : ℕ) : TaskStep s now (.recordWorkerHeartbeat workerId activeTaskId detail)
      (recordWorkerHeartbeat s workerId activeTaskId detail now).store := by
  have hassignments := jobRecords_assignments (recordWorkerHeartbeat_frame s workerId activeTaskId
    detail now).1
  cases hfind : s.workers.find? (fun w => w.workerId == workerId) with
  | none =>
    simp only [recordWorkerHeartbeat, hfind]
    exact .kept rfl rfl rfl
  | some worker =>
    refine .beat hassignments ?_ ?_
    · simp only [recordWorkerHeartbeat, hfind]
      split
      · rfl
      · rw [push_workerTasks]
    · simp only [recordWorkerHeartbeat, hfind]
      split
      · rfl
      · rw [push_workers]
        rfl

theorem perform_taskStep (s : StateStore) (now : ℕ) (op : Operation) :
    TaskStep s now op (perform s now op).store := by
  cases op with
  | leaseTrainingAssignment t m c version minClients ttl =>
    obtain ⟨granted, hgranted, hassignments⟩ := lease_assignments s t m c version minClients ttl now
    have hrest := lease_completedRounds s t m c version minClients ttl now
    exact .swept rfl granted hgranted hassignments hrest.2.2.2 hrest.2.2.1
  | validateTrainingAssignmentSubmission t m c jobId id round version =>
    exact validate_taskStep s t m c jobId id round version now
  | acceptTrainingAssignmentSubmission t m c jobId id round version =>
    exact accept_taskStep s t m c jobId id round version now
  | advanceTrainingJobRound t m round version => exact advance_taskStep s t m round version now
  | upsertWorker record => exact upsertWorker_taskStep s record now
  | leaseWorkerTask worker assignment job dataset =>
    exact leaseWorkerTask_taskStep s worker assignment job dataset now
  | updateWorkerTaskStatus workerId taskId status detail progressPercent =>
    exact updateWorkerTaskStatus_taskStep s workerId taskId status detail progressPercent now
  | recordWorkerHeartbeat workerId activeTaskId detail =>
    exact recordWorkerHeartbeat_taskStep s workerId activeTaskId detail now
  | recordClientRegistration record => exact .kept rfl rfl rfl
  | updateClientLastRound t m c round => exact .kept rfl rfl rfl
  | recordWeightSubmission t m c round =>
    exact .kept (pushAuditEvent_frame _ _).2.1 (push_workerTasks _ _) (push_workers _ _)
  | recordAggregatedModel t m round path strategy keyVersion clientCount weightDimension =>
    exact .kept (pushAuditEvent_frame _ _).2.1 (push_workerTasks _ _) (push_workers _ _)
  | rollbackModel t m targetVersion =>
    simp only [perform, written, rollbackModel]
    split
    · exact .kept rfl rfl rfl
    · exact .kept (pushAuditEvent_frame _ _).2.1 (push_workerTasks _ _) (push_workers _ _)
  | updateActiveKeyVersion version =>
    simp only [perform, written, updateActiveKeyVersion]
    split
    · exact .kept rfl rfl rfl
    · exact .kept (pushAuditEvent_frame _ _).2.1 (push_workerTasks _ _) (push_workers _ _)
  | recordAuditEvent event =>
    exact .kept (pushAuditEvent_frame _ _).2.1 (push_workerTasks _ _) (push_workers _ _)
  | upsertDataset record =>
    exact .kept (pushAuditEvent_frame _ _).2.1 (push_workerTasks _ _) (push_workers _ _)
  | createTrainingJob record =>
    exact .kept (pushAuditEvent_frame _ _).2.1 (push_workerTasks _ _) (push_workers _ _)

end PqFl.WorkerSteps
