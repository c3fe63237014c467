import PqFl.StateLoading
import PqFl.WorkerSteps

/-!
# Operations whose save fails

Every operation writes to the records in memory first and calls `SaveLocked`
last. When that throws, what was written stays. So a failed operation leaves the
store as it was only if it had nothing to write.
-/

set_option autoImplicit false

namespace PqFl.FailedSaves
open PqFl.Identifiers PqFl.Timestamps PqFl.StoreRecords PqFl.StateStore PqFl.ListUpdate
open PqFl.StoreRuns PqFl.FileReplacement PqFl.StateFile PqFl.StateLoading PqFl.WorkerSteps
open PqFl.LeaseLifecycle PqFl.JobLedger

/-- An operation with the exception of its `SaveLocked`. -/
def call (path : String) (s : StateStore) (files : Files FileText) (now : ℕ) (op : Operation)
    (result : SaveResult) : Loaded :=
  let performed := perform s now op
  if performed.save then
    let saved := saveLocked path performed.store files result
    ⟨saved.1, performed.store, saved.2⟩
  else ⟨.ok (), performed.store, files⟩

/-- An operation which throws has left no trace in memory. -/
def LeavesStore (s : StateStore) (after : Loaded) : Prop :=
  ∀ what, after.result = .error what → after.store = s

theorem call_saved (path : String) (m : Durability.Machine) (now : ℕ) (op : Operation) :
    call path m.store m.files now op .saved =
      ⟨.ok (), (Durability.after m (.perform op now)).store,
        (Durability.after m (.perform op now)).files⟩ := by
  unfold call Durability.after Durability.saveSteps Durability.outcome
  dsimp only
  split
  · rw [saveLocked_saved, replace_done]
  · rfl

/-- The audit log is full, and every event in it is this one. -/
def FullOf (s : StateStore) (event : PersistedAuditEvent) : Prop :=
  s.auditEvents = List.replicate s.auditRetention event

/-- Nothing that the operation would write differs from what the store has. -/
def NothingToWrite (s : StateStore) (now : ℕ) : Operation → Prop
  | .recordClientRegistration record => ∃ c,
      s.clients.find? (isClient (normalizeTenant record.tenantId) (normalizeModel record.modelId)
        record.clientId) = some c ∧
      (c.peerIdentity = "" → record.peerIdentity = "") ∧
      c.localDatasetSize = record.localDatasetSize ∧ c.hardwareInfo = record.hardwareInfo ∧
      c.datasetFingerprint = record.datasetFingerprint
  | .updateClientLastRound t m clientId round => ∀ c,
      s.clients.find? (isClient (normalizeTenant t) (normalizeModel m) clientId) = some c →
        round ≤ c.lastActiveRound
  | .recordWeightSubmission _ _ _ _ => False
  | .recordAggregatedModel _ _ _ _ _ _ _ _ => False
  | .rollbackModel t m version => ∀ target,
      s.models.find? (isVersionOf (normalizeTenant t) (normalizeModel m) version) = some target →
        s.models.filter (isActiveModelOf (normalizeTenant t) (normalizeModel m)) = [target] ∧
        FullOf s ⟨currentTimestamp now, "model_rollback", normalizeTenant t, normalizeModel m, "",
          "Activated model version " ++ toString version⟩
  | .updateActiveKeyVersion version => s.activeKeyVersion = version
  | .recordAuditEvent event => FullOf s { event with
      timestamp := if event.timestamp = "" then currentTimestamp now else event.timestamp
      tenantId := normalizeTenant event.tenantId
      modelId := normalizeModel event.modelId }
  | .upsertDataset record => ∃ existing,
      s.datasets.find? (isDataset (normalizeTenant record.tenantId)
        (normalizeModel record.modelId) record.datasetId) = some existing ∧
      existing = { record with
        tenantId := normalizeTenant record.tenantId
        modelId := normalizeModel record.modelId
        createdAt := existing.createdAt } ∧
      FullOf s ⟨currentTimestamp now, "dataset_upserted", existing.tenantId, existing.modelId, "",
        "Dataset " ++ existing.datasetId ++ " now points to " ++ existing.storageUri⟩
  | .createTrainingJob _ => False
  | .leaseTrainingAssignment t m clientId _ minClients _ => ∀ job,
      getActiveTrainingJob s t m = some job →
        ¬ (job.targetRounds > 0 ∧ job.completedRounds ≥ job.targetRounds) ∧
        job.status = .running ∧
        (∀ a ∈ s.assignments, hasLapsed (currentTimestamp now) a = false) ∧
        ((∃ a ∈ s.assignments, isLiveLease job.jobId (max 1 job.currentRound)
            (currentTimestamp now) a = true ∧ a.clientId = clientId) ∨
          roundCapacity job minClients ≤ (s.assignments.filter
            (isLiveLease job.jobId (max 1 job.currentRound) (currentTimestamp now))).length)
  | .validateTrainingAssignmentSubmission _ _ _ _ _ _ _ => True
  | .acceptTrainingAssignmentSubmission t m clientId jobId id round version => ∀ a,
      checkTrainingAssignmentSubmission (expireAssignmentsLocked s (currentTimestamp now)) t m
        clientId jobId id round version (currentTimestamp now) ≠ .passed a
  | .advanceTrainingJobRound t m _ _ => getActiveTrainingJob s t m = none
  | .upsertWorker record => ∃ existing,
      s.workers.find? (fun w => w.workerId == record.workerId) = some existing ∧
      existing = { record with
        tenantId := normalizeTenant record.tenantId
        modelId := normalizeModel record.modelId
        maxParallelTasks := max 1 record.maxParallelTasks
        registeredAt := existing.registeredAt
        lastHeartbeatAt := if record.lastHeartbeatAt = "" then
          (if record.registeredAt = "" then currentTimestamp now else record.registeredAt)
          else record.lastHeartbeatAt
        activeTaskId := if record.activeTaskId = "" then existing.activeTaskId
          else record.activeTaskId } ∧
      FullOf s ⟨currentTimestamp now, "worker_upserted", existing.tenantId, existing.modelId,
        existing.trainerClientId,
        "Worker " ++ existing.workerId ++ " registered launcher " ++ existing.launcher⟩
  | .leaseWorkerTask worker assignment _ _ => ∃ task,
      s.workerTasks.find? (isTaskFor assignment.assignmentId worker.workerId) = some task ∧
      task.updatedAt = currentTimestamp now ∧
      ∀ w ∈ s.workers, w.workerId = worker.workerId → w.status = .leased ∧
        w.lastHeartbeatAt = currentTimestamp now ∧ w.activeTaskId = task.taskId
  | .updateWorkerTaskStatus workerId taskId status detail progressPercent => ∀ task,
      s.workerTasks.find? (fun task => task.taskId == taskId) = some task →
        task.workerId = workerId →
          (status.getD task.status = task.status ∧ task.detail = detail ∧
            task.progressPercent = max 0 (min 100 progressPercent) ∧
            task.updatedAt = currentTimestamp now ∧
            (task.status = .running → task.startedAt ≠ "") ∧
            (isFinalReport task.status = true → task.completedAt ≠ "")) ∧
          (∀ w, s.workers.find? (fun w => w.workerId == workerId) = some w →
            w.lastHeartbeatAt = currentTimestamp now ∧
            (task.status = .running → w.status = .busy ∧ w.activeTaskId = task.taskId) ∧
            (task.status = .leased → w.status = .leased ∧ w.activeTaskId = task.taskId) ∧
            (isFinalReport task.status = true → w.status = .idle ∧
              (w.activeTaskId = task.taskId → task.taskId = ""))) ∧
          FullOf s ⟨currentTimestamp now, "worker_task_status", task.tenantId, task.modelId,
            task.trainerClientId, "Worker " ++ workerId ++ " set task " ++ taskId ++ " to " ++
              taskStatusText task.status⟩
  | .recordWorkerHeartbeat workerId activeTaskId detail => ∀ w,
      s.workers.find? (fun w => w.workerId == workerId) = some w →
        (w.lastHeartbeatAt = currentTimestamp now ∧
          (activeTaskId ≠ "" → w.status = .busy ∧ w.activeTaskId = activeTaskId) ∧
          (activeTaskId = "" → w.status ≠ .busy)) ∧
        (detail = "" ∨ FullOf s ⟨currentTimestamp now, "worker_heartbeat", w.tenantId, w.modelId,
          w.trainerClientId, "Worker " ++ workerId ++ ": " ++ detail⟩)

theorem updateFirst_eq_self {α : Type} {p : α → Bool} {f : α → α} (l : List α) :
    updateFirst p f l = l ↔ ∀ x, l.find? p = some x → f x = x := by
  induction l with
  | nil => simp [updateFirst]
  | cons y ys ih =>
    unfold updateFirst
    by_cases hy : p y = true
    · rw [if_pos hy, List.find?_cons_of_pos hy, List.cons.injEq]
      simp
    · rw [if_neg hy, List.find?_cons_of_neg hy, List.cons.injEq, ih]
      simp

theorem map_eq_self {α : Type} {f : α → α} (l : List α) :
    l.map f = l ↔ ∀ x ∈ l, f x = x := by
  induction l with
  | nil => simp
  | cons y ys ih => rw [List.map_cons, List.cons.injEq, ih, List.forall_mem_cons]

theorem append_singleton_ne {α : Type} (l : List α) (x : α) : l ++ [x] ≠ l := by
  intro h
  have hlength := congrArg List.length h
  rw [List.length_append, List.length_singleton] at hlength
  omega

theorem all_eq_of_shifted {α : Type} {l : List α} {x e : α} (h : l ++ [e] = x :: l) :
    ∀ y ∈ x :: l, y = e := by
  induction l generalizing x with
  | nil =>
    obtain ⟨rfl, -⟩ := List.cons.inj h
    simp
  | cons z zs ih =>
    obtain ⟨rfl, hrest⟩ := List.cons.inj h
    have hall := ih hrest
    intro y hy
    rcases List.mem_cons.mp hy with rfl | hy
    · exact hall y List.mem_cons_self
    · exact hall y hy

theorem trimmed_eq_iff {α : Type} (l : List α) (e : α) (n : ℕ) :
    (if n < (l ++ [e]).length then (l ++ [e]).drop ((l ++ [e]).length - n) else l ++ [e]) = l ↔
      l = List.replicate n e := by
  have hlength : (l ++ [e]).length = l.length + 1 := by simp
  rw [hlength]
  constructor
  · intro h
    by_cases hn : n < l.length + 1
    · rw [if_pos hn] at h
      have hsame := congrArg List.length h
      rw [List.length_drop, hlength] at hsame
      have hall : n = l.length := by omega
      rw [hall, show l.length + 1 - l.length = 1 by omega] at h
      rw [hall, List.eq_replicate_iff]
      refine ⟨rfl, ?_⟩
      cases l with
      | nil => simp
      | cons x xs =>
        have hshift : xs ++ [e] = x :: xs := h
        exact all_eq_of_shifted hshift
    · rw [if_neg hn] at h
      exact absurd h (append_singleton_ne l e)
  · rintro rfl
    rw [List.length_replicate, if_pos (by omega), show n + 1 - n = 1 by omega,
      ← List.replicate_succ', List.drop_replicate, Nat.add_sub_cancel]

theorem trim_eq (s : StateStore) : trimAuditEventsLocked s = { s with
    auditEvents := if s.auditRetention < s.auditEvents.length then
      s.auditEvents.drop (s.auditEvents.length - s.auditRetention) else s.auditEvents } := by
  unfold trimAuditEventsLocked
  split
  · rfl
  · rfl

theorem push_eq_iff {s s' : StateStore} (hevents : s'.auditEvents = s.auditEvents)
    (hretention : s'.auditRetention = s.auditRetention) (event : PersistedAuditEvent) :
    pushAuditEvent s' event = s ↔ s' = s ∧ FullOf s event := by
  have hlog := trimmed_eq_iff s.auditEvents event s.auditRetention
  unfold pushAuditEvent FullOf
  rw [trim_eq, ← hlog]
  dsimp only
  rw [hevents, hretention]
  constructor
  · intro h
    refine ⟨?_, congrArg StateStore.auditEvents h⟩
    obtain ⟨retention, clients, models, datasets, jobs, assignments, workers, tasks, events, completed,
      total, version⟩ := s
    obtain ⟨retention', clients', models', datasets', jobs', assignments', workers', tasks', events',
      completed', total', version'⟩ := s'
    dsimp only at hevents hretention h
    subst hevents hretention
    simp only [StateStore.mk.injEq] at h ⊢
    exact ⟨h.1, h.2.1, h.2.2.1, h.2.2.2.1, h.2.2.2.2.1, h.2.2.2.2.2.1, h.2.2.2.2.2.2.1,
      h.2.2.2.2.2.2.2.1, trivial, h.2.2.2.2.2.2.2.2.2⟩
  · rintro ⟨rfl, h⟩
    rw [h]

section
variable (s : StateStore)

theorem clients_eq_iff (l : List PersistedClientRecord) :
    { s with clients := l } = s ↔ l = s.clients :=
  ⟨fun h => congrArg StateStore.clients h, fun h => by rw [h]⟩

theorem models_eq_iff (l : List PersistedModelRecord) :
    { s with models := l } = s ↔ l = s.models :=
  ⟨fun h => congrArg StateStore.models h, fun h => by rw [h]⟩

theorem datasets_eq_iff (l : List PersistedDatasetRecord) :
    { s with datasets := l } = s ↔ l = s.datasets :=
  ⟨fun h => congrArg StateStore.datasets h, fun h => by rw [h]⟩

theorem workers_eq_iff (l : List PersistedWorkerRecord) :
    { s with workers := l } = s ↔ l = s.workers :=
  ⟨fun h => congrArg StateStore.workers h, fun h => by rw [h]⟩

theorem tasks_eq_iff (tasks : List PersistedWorkerTaskRecord)
    (workers : List PersistedWorkerRecord) :
    { s with workerTasks := tasks, workers := workers } = s ↔
      tasks = s.workerTasks ∧ workers = s.workers :=
  ⟨fun h => ⟨congrArg StateStore.workerTasks h, congrArg StateStore.workers h⟩,
    fun h => by rw [h.1, h.2]⟩

end

/-- The operation writes nothing before a save that fails. -/
def Unwritten {α : Type} (s : StateStore) (o : Outcome α) : Prop := o.save = true → o.store = s

theorem unwritten_saving {α : Type} {s : StateStore} {o : Outcome α} (h : o.save = true) :
    Unwritten s o ↔ o.store = s := by
  unfold Unwritten
  simp [h]

theorem registration_unwritten (s : StateStore) (record : PersistedClientRecord) (now : ℕ) :
    Unwritten s (recordClientRegistration s record now) ↔
      NothingToWrite s now (.recordClientRegistration record) := by
  rw [unwritten_saving rfl]
  unfold recordClientRegistration NothingToWrite
  dsimp only
  rw [clients_eq_iff]
  split
  · rename_i hany
    obtain ⟨c, hfound⟩ := Option.isSome_iff_exists.mp (List.isSome_find?.trans hany)
    rw [updateFirst_eq_self, hfound]
    simp only [Option.some.injEq, forall_eq', exists_eq_left']
    obtain ⟨tenant, model, client, peerIdentity, size, hardware, fingerprint, lastRound, at'⟩ := c
    simp only [PersistedClientRecord.mk.injEq, true_and, and_true]
    have hpeer : (if (peerIdentity == "" && record.peerIdentity != "") = true then
        record.peerIdentity else peerIdentity) = peerIdentity ↔
          (peerIdentity = "" → record.peerIdentity = "") := by
      by_cases hmissing : peerIdentity = ""
      · by_cases hgiven : record.peerIdentity = ""
        · simp [hmissing, hgiven]
        · simp [hmissing, hgiven]
      · simp [hmissing]
    rw [hpeer, eq_comm (a := record.localDatasetSize), eq_comm (a := record.hardwareInfo),
      eq_comm (a := record.datasetFingerprint)]
  · rename_i hnone
    rw [← List.isSome_find?, Option.not_isSome_iff_eq_none] at hnone
    rw [hnone]
    simp

theorem lastRound_unwritten (s : StateStore) (t m clientId : String) (round : ℤ) (now : ℕ) :
    Unwritten s (updateClientLastRound s t m clientId round) ↔
      NothingToWrite s now (.updateClientLastRound t m clientId round) := by
  rw [unwritten_saving rfl]
  unfold updateClientLastRound NothingToWrite
  dsimp only
  rw [clients_eq_iff, updateFirst_eq_self]
  apply forall_congr'
  intro c
  apply imp_congr_right
  intro _
  obtain ⟨_⟩ := c
  simp

theorem submission_unwritten (s : StateStore) (t m clientId : String) (round : ℤ) (now : ℕ) :
    Unwritten s (recordWeightSubmission s t m clientId round now) ↔
      NothingToWrite s now (.recordWeightSubmission t m clientId round) := by
  rw [unwritten_saving rfl]
  apply iff_of_false
  · intro h
    have htotal := congrArg StateStore.totalSubmissions h
    unfold recordWeightSubmission at htotal
    dsimp only at htotal
    rw [show ∀ x event, (pushAuditEvent x event).totalSubmissions = x.totalSubmissions from
      fun x event => (Durability.records_counters (records_push x event)).1] at htotal
    dsimp only at htotal
    omega
  · exact id

theorem audit_unwritten (s : StateStore) (event : PersistedAuditEvent) (now : ℕ) :
    Unwritten s (recordAuditEvent s event now) ↔
      NothingToWrite s now (.recordAuditEvent event) := by
  rw [unwritten_saving rfl]
  unfold recordAuditEvent NothingToWrite
  dsimp only
  rw [push_eq_iff rfl rfl]
  simp

theorem keyVersion_unwritten (s : StateStore) (version : ℤ) (now : ℕ) :
    Unwritten s (updateActiveKeyVersion s version now) ↔
      NothingToWrite s now (.updateActiveKeyVersion version) := by
  unfold updateActiveKeyVersion NothingToWrite
  by_cases hsame : s.activeKeyVersion = version
  · rw [if_pos hsame]
    apply iff_of_true
    · intro hsave
      cases hsave
    · exact hsame
  · rw [if_neg hsame, unwritten_saving rfl]
    apply iff_of_false
    · have hpush : ∀ event, pushAuditEvent { s with activeKeyVersion := version } event = s ↔
          { s with activeKeyVersion := version } = s ∧ FullOf s event := push_eq_iff rfl rfl
      rw [hpush]
      rintro ⟨hversion, -⟩
      exact hsame (congrArg StateStore.activeKeyVersion hversion).symm
    · exact hsame

theorem dataset_unwritten (s : StateStore) (record : PersistedDatasetRecord) (now : ℕ) :
    Unwritten s (upsertDataset s record now) ↔ NothingToWrite s now (.upsertDataset record) := by
  rw [unwritten_saving rfl]
  unfold upsertDataset NothingToWrite
  dsimp only
  cases hfound : s.datasets.find? (isDataset (normalizeTenant record.tenantId)
      (normalizeModel record.modelId) record.datasetId) with
  | none =>
    dsimp only
    rw [push_eq_iff, datasets_eq_iff]
    · simp
    · rfl
    · rfl
  | some existing =>
    dsimp only
    rw [push_eq_iff, datasets_eq_iff, updateFirst_eq_self, hfound]
    · simp only [Option.some.injEq, forall_eq', exists_eq_left']
      constructor
      · rintro ⟨hsame, hfull⟩
        refine ⟨hsame.symm, ?_⟩
        rw [← hsame]
        exact hfull
      · rintro ⟨hsame, hfull⟩
        refine ⟨hsame.symm, ?_⟩
        rw [hsame] at hfull
        exact hfull
    · rfl
    · rfl

theorem aggregated_unwritten (s : StateStore) (t m : String) (round : ℤ) (path strategy : String)
    (keyVersion clientCount weightDimension : ℤ) (now : ℕ) :
    Unwritten s (recordAggregatedModel s t m round path strategy keyVersion clientCount
      weightDimension now) ↔ NothingToWrite s now (.recordAggregatedModel t m round path strategy
        keyVersion clientCount weightDimension) := by
  rw [unwritten_saving rfl]
  apply iff_of_false
  · intro h
    have hmodels := congrArg (fun x : StateStore => x.models.length) h
    rw [record_models, List.length_append, List.length_map, List.length_singleton] at hmodels
    omega
  · exact id

theorem deactivate_eq_self (t m : String) (x : PersistedModelRecord) :
    deactivate t m x = x ↔ isActiveModelOf t m x = false := by
  obtain ⟨tenant, model, version, round, path, strategy, key, clients, dimension, active, at'⟩ := x
  unfold deactivate isActiveModelOf
  by_cases hof : isModelOf t m ⟨tenant, model, version, round, path, strategy, key, clients,
      dimension, active, at'⟩ = true
  · rw [if_pos hof, hof]
    simp [eq_comm]
  · rw [if_neg hof]
    simp [hof]

theorem isVersionOf_deactivate (t m : String) (version : ℤ) (x : PersistedModelRecord) :
    isVersionOf t m version (deactivate t m x) = isVersionOf t m version x := by
  obtain ⟨htenant, hmodel, hversion⟩ := deactivate_scope t m x
  unfold isVersionOf isModelOf
  rw [htenant, hmodel, hversion]

theorem activate_deactivate {t m : String} {version : ℤ} {x : PersistedModelRecord}
    (h : isVersionOf t m version x = true) :
    { deactivate t m x with active := true } = x ↔ isActiveModelOf t m x = true := by
  have hof : isModelOf t m x = true := by
    unfold isVersionOf at h
    exact (Bool.and_eq_true_iff.mp h).1
  unfold deactivate isActiveModelOf
  rw [if_pos hof, hof, Bool.true_and]
  constructor
  · intro hsame
    exact congrArg PersistedModelRecord.active hsame.symm
  · intro hactive
    rw [← hactive]

theorem activated_eq_self {t m : String} {version : ℤ} {models : List PersistedModelRecord}
    {target : PersistedModelRecord}
    (h : models.find? (isVersionOf t m version) = some target) :
    updateFirst (isVersionOf t m version) (fun x => { x with active := true })
        (models.map (deactivate t m)) = models ↔
      models.filter (isActiveModelOf t m) = [target] := by
  induction models with
  | nil => cases h
  | cons y ys ih =>
    rw [List.map_cons]
    unfold updateFirst
    rw [isVersionOf_deactivate]
    by_cases hy : isVersionOf t m version y = true
    · rw [List.find?_cons_of_pos hy] at h
      obtain rfl := Option.some.inj h
      rw [if_pos hy, List.cons.injEq, activate_deactivate hy, map_eq_self]
      simp only [deactivate_eq_self]
      by_cases hactive : isActiveModelOf t m y = true
      · rw [List.filter_cons_of_pos hactive, List.cons.injEq, List.filter_eq_nil_iff]
        simp [hactive]
      · rw [List.filter_cons_of_neg hactive]
        apply iff_of_false
        · exact fun hboth => hactive hboth.1
        · intro honly
          have hmem : y ∈ ys.filter (isActiveModelOf t m) := by
            rw [honly]
            exact List.mem_cons_self
          exact hactive (List.mem_filter.mp hmem).2
    · rw [List.find?_cons_of_neg hy] at h
      rw [if_neg hy, List.cons.injEq, deactivate_eq_self, ih h]
      by_cases hactive : isActiveModelOf t m y = true
      · rw [List.filter_cons_of_pos hactive]
        apply iff_of_false
        · rw [hactive]
          simp
        · intro honly
          obtain ⟨rfl, -⟩ := List.cons.inj honly
          exact hy (List.find?_some h)
      · rw [List.filter_cons_of_neg hactive]
        simp [hactive]

theorem rollback_unwritten (s : StateStore) (t m : String) (version : ℤ) (now : ℕ) :
    Unwritten s (rollbackModel s t m version now) ↔
      NothingToWrite s now (.rollbackModel t m version) := by
  unfold rollbackModel NothingToWrite
  dsimp only
  cases hfound : s.models.find? (isVersionOf (normalizeTenant t) (normalizeModel m) version) with
  | none =>
    apply iff_of_true
    · intro hsave
      cases hsave
    · simp
  | some target =>
    dsimp only
    rw [unwritten_saving rfl]
    dsimp only
    rw [push_eq_iff, models_eq_iff, activated_eq_self hfound]
    · simp only [Option.some.injEq, forall_eq']
    · rfl
    · rfl

theorem job_unwritten (s : StateStore) (record : PersistedTrainingJobRecord) (now : ℕ) :
    Unwritten s (createTrainingJob s record now) ↔
      NothingToWrite s now (.createTrainingJob record) := by
  rw [unwritten_saving rfl]
  apply iff_of_false
  · intro h
    have hjobs := congrArg (fun x : StateStore => x.trainingJobs.length) h
    unfold createTrainingJob at hjobs
    dsimp only at hjobs
    rw [(records_eq (records_push _ _)).2.2.2.1, List.length_append, List.length_map,
      List.length_singleton] at hjobs
    omega
  · exact id

theorem lapse_eq_self (now : String) (a : PersistedAssignmentLease) :
    lapse now a = a ↔ hasLapsed now a = false := by
  unfold lapse
  by_cases hlapsed : hasLapsed now a = true
  · rw [if_pos hlapsed, hlapsed]
    apply iff_of_false
    · intro h
      have hstatus : a.status = .leased := by
        unfold hasLapsed at hlapsed
        simp only [Bool.and_eq_true, beq_iff_eq] at hlapsed
        exact hlapsed.1.1
      have hexpired := congrArg PersistedAssignmentLease.status h
      rw [hstatus] at hexpired
      cases hexpired
    · simp
  · rw [if_neg hlapsed]
    simpa using hlapsed

theorem expire_eq_self {s : StateStore} {now : String}
    (h : ∀ a ∈ s.assignments, hasLapsed now a = false) : expireAssignmentsLocked s now = s := by
  have hnone : s.assignments.filter (hasLapsed now) = [] := by
    rw [List.filter_eq_nil_iff]
    intro a ha
    rw [h a ha]
    simp
  have hsame : s.assignments.map (lapse now) = s.assignments :=
    (map_eq_self _).mpr (fun a ha => (lapse_eq_self now a).mpr (h a ha))
  unfold expireAssignmentsLocked
  rw [hnone]
  show { s with
    assignments := s.assignments.map (lapse now)
    auditEvents := s.auditEvents ++ [] } = s
  rw [hsame, List.append_nil]

theorem updateLast_eq_self {α : Type} {p : α → Bool} {f : α → α} {l : List α} {x : α}
    (h : findLast p l = some x) : updateLast p f l = l ↔ f x = x := by
  unfold updateLast
  rw [List.reverse_eq_iff, updateFirst_eq_self]
  unfold findLast at h
  rw [h]
  simp

theorem lease_unwritten_swept {s : StateStore} {t m clientId : String} {version minClients ttl : ℤ}
    {now : ℕ} (h : (leaseTrainingAssignment s t m clientId version minClients ttl now).store = s) :
    (∀ a ∈ s.assignments, hasLapsed (currentTimestamp now) a = false) := by
  obtain ⟨granted, -, hassignments⟩ :=
    WorkerSteps.lease_assignments s t m clientId version minClients ttl now
  rw [h] at hassignments
  have hlength := congrArg List.length hassignments
  rw [List.length_append, List.length_map] at hlength
  have hnone : granted = [] := List.length_eq_zero_iff.mp (by omega)
  rw [hnone, List.append_nil] at hassignments
  intro a ha
  exact (lapse_eq_self _ a).mp ((map_eq_self _).mp hassignments.symm a ha)

theorem trainingJobs_eq_iff (s : StateStore) (l : List PersistedTrainingJobRecord) :
    { s with trainingJobs := l } = s ↔ l = s.trainingJobs :=
  ⟨fun h => congrArg StateStore.trainingJobs h, fun h => by rw [h]⟩

theorem grant_save (s : StateStore) (job : PersistedTrainingJobRecord) (t m clientId : String)
    (version minClients ttl : ℤ) (now : ℕ) :
    (grantLease s job t m clientId version minClients ttl now).save = true := by
  unfold grantLease
  dsimp only
  split
  · rfl
  · split
    · rfl
    · rfl

theorem grant_jobs (s : StateStore) (job : PersistedTrainingJobRecord) (t m clientId : String)
    (version minClients ttl : ℤ) (now : ℕ) :
    (grantLease s job t m clientId version minClients ttl now).store.trainingJobs =
      s.trainingJobs := by
  rcases grantLease_cases s job t m clientId version minClients ttl now with h | ⟨event, h⟩
  · rw [h]
  · rw [h, (pushAuditEvent_frame _ _).1]

theorem grant_eq_self (s : StateStore) (job : PersistedTrainingJobRecord) (t m clientId : String)
    (version minClients ttl : ℤ) (now : ℕ) :
    (grantLease s job t m clientId version minClients ttl now).store = s ↔
      ((∃ a ∈ s.assignments, isLiveLease job.jobId (max 1 job.currentRound)
          (currentTimestamp now) a = true ∧ a.clientId = clientId) ∨
        roundCapacity job minClients ≤ (s.assignments.filter
          (isLiveLease job.jobId (max 1 job.currentRound) (currentTimestamp now))).length) := by
  unfold grantLease
  dsimp only
  cases hlive : s.assignments.find? (fun a => isLiveLease job.jobId (max 1 job.currentRound)
      (currentTimestamp now) a && a.clientId == clientId) with
  | some a =>
    have hmem := List.mem_of_find?_eq_some hlive
    have hboth := List.find?_some hlive
    rw [Bool.and_eq_true, beq_iff_eq] at hboth
    apply iff_of_true rfl
    exact .inl ⟨a, hmem, hboth⟩
  | none =>
    have hnone : ¬ ∃ a ∈ s.assignments, isLiveLease job.jobId (max 1 job.currentRound)
        (currentTimestamp now) a = true ∧ a.clientId = clientId := by
      rintro ⟨a, ha, hboth⟩
      have hmiss := List.find?_eq_none.mp hlive a ha
      rw [Bool.and_eq_true, beq_iff_eq] at hmiss
      exact hmiss hboth
    dsimp only
    split
    · rename_i hfull
      exact iff_of_true rfl (.inr hfull)
    · rename_i hroom
      apply iff_of_false
      · intro h
        have hassignments := congrArg StateStore.assignments h
        rw [(pushAuditEvent_frame _ _).2.1] at hassignments
        exact append_singleton_ne _ _ hassignments
      · rintro (hlive | hfull)
        · exact hnone hlive
        · exact hroom hfull

theorem activeJob_status {s : StateStore} {t m : String} {job : PersistedTrainingJobRecord}
    (h : getActiveTrainingJob s t m = some job) : isActiveJobStatus job.status = true := by
  have hactive := List.find?_some h
  unfold isActiveJobOf at hactive
  exact (Bool.and_eq_true_iff.mp hactive).2

theorem runningJob_eq_self (time : String) (job : PersistedTrainingJobRecord) :
    runningJob time job = job ↔ job.status ≠ .planned := by
  unfold runningJob
  by_cases hplanned : job.status = .planned
  · rw [if_pos hplanned]
    apply iff_of_false
    · intro h
      have hstatus := congrArg PersistedTrainingJobRecord.status h
      rw [hplanned] at hstatus
      cases hstatus
    · exact fun h => h hplanned
  · rw [if_neg hplanned]
    exact iff_of_true rfl hplanned

theorem lease_unwritten (s : StateStore) (t m clientId : String) (version minClients ttl : ℤ)
    (now : ℕ) : Unwritten s (leaseTrainingAssignment s t m clientId version minClients ttl now) ↔
      NothingToWrite s now (.leaseTrainingAssignment t m clientId version minClients ttl) := by
  have hjobs : getActiveTrainingJob (expireAssignmentsLocked s (currentTimestamp now)) t m =
      getActiveTrainingJob s t m := by
    unfold getActiveTrainingJob
    rw [(expireAssignmentsLocked_frame s _).1]
  unfold NothingToWrite
  dsimp only
  cases hjob : getActiveTrainingJob s t m with
  | none =>
    apply iff_of_true
    · unfold leaseTrainingAssignment
      dsimp only
      rw [hjobs, hjob]
      intro hsave
      cases hsave
    · intro job h
      cases h
  | some job =>
    have hactive := activeJob_status hjob
    simp only [Option.some.injEq, forall_eq']
    by_cases hswept : ∀ a ∈ s.assignments, hasLapsed (currentTimestamp now) a = false
    · unfold leaseTrainingAssignment
      dsimp only
      rw [expire_eq_self hswept, hjob]
      dsimp only
      by_cases hdone : job.targetRounds > 0 ∧ job.completedRounds ≥ job.targetRounds
      · rw [if_pos hdone, unwritten_saving rfl]
        apply iff_of_false
        · unfold updateActiveTrainingJob
          dsimp only
          rw [trainingJobs_eq_iff, updateLast_eq_self hjob]
          intro h
          rw [← h] at hactive
          cases hactive
        · exact fun h => h.1 hdone
      · rw [if_neg hdone]
        by_cases hrunning : job.status = .running
        · have hjobKept : runningJob (currentTimestamp now) job = job := by
            rw [runningJob_eq_self, hrunning]
            exact JobStatus.noConfusion
          have hstore : updateActiveTrainingJob s t m
              (fun _ => runningJob (currentTimestamp now) job) = s := by
            unfold updateActiveTrainingJob
            dsimp only
            rw [trainingJobs_eq_iff, updateLast_eq_self hjob]
            exact hjobKept
          rw [hstore, hjobKept, unwritten_saving (grant_save ..), grant_eq_self]
          constructor
          · exact fun h => ⟨hdone, hrunning, hswept, h⟩
          · exact fun h => h.2.2.2
        · apply iff_of_false
          · rw [unwritten_saving (grant_save ..)]
            intro h
            have htrainingJobs := congrArg StateStore.trainingJobs h
            rw [grant_jobs] at htrainingJobs
            unfold updateActiveTrainingJob at htrainingJobs
            dsimp only at htrainingJobs
            rw [updateLast_eq_self hjob, runningJob_eq_self] at htrainingJobs
            unfold isActiveJobStatus at hactive
            simp only [Bool.or_eq_true, beq_iff_eq] at hactive
            rcases hactive with hplanned | hrun
            · exact htrainingJobs hplanned
            · exact hrunning hrun
          · exact fun h => hrunning h.2.1
    · apply iff_of_false
      · rw [unwritten_saving]
        · exact fun h => hswept (lease_unwritten_swept h)
        · unfold leaseTrainingAssignment
          dsimp only
          rw [hjobs, hjob]
          dsimp only
          split
          · rfl
          · exact grant_save ..
      · exact fun h => hswept h.2.2.1

theorem validate_unwritten (s : StateStore) (t m clientId jobId id : String) (round version : ℤ)
    (now : ℕ) :
    Unwritten s (validateTrainingAssignmentSubmission s t m clientId jobId id round version now) ↔
      NothingToWrite s now
        (.validateTrainingAssignmentSubmission t m clientId jobId id round version) := by
  unfold NothingToWrite
  apply iff_of_true _ trivial
  intro hsave
  unfold validateTrainingAssignmentSubmission at hsave
  dsimp only at hsave
  split at hsave
  · cases hsave
  · cases hsave
  · rename_i hcheck
    exact absurd hcheck (check_after_sweep s t m clientId jobId id round version _)
  · cases hsave

theorem accept_passed_ne {s : StateStore} {t m clientId jobId id : String} {round version : ℤ}
    {now : ℕ} {x : PersistedAssignmentLease}
    (hcheck : checkTrainingAssignmentSubmission (expireAssignmentsLocked s (currentTimestamp now)) t
      m clientId jobId id round version (currentTimestamp now) = .passed x) :
    (acceptTrainingAssignmentSubmission s t m clientId jobId id round version now).store ≠ s := by
  obtain ⟨-, -, -, -, hx, -, hleased⟩ := check_passed hcheck
  rw [leaseNamed, (expireAssignmentsLocked_frame s _).2.1] at hx
  intro h
  have hassignments : updateFirst (fun a => a.assignmentId == id)
      (submitAssignment (currentTimestamp now))
      (s.assignments.map (lapse (currentTimestamp now))) = s.assignments := by
    have hafter := congrArg StateStore.assignments h
    simp only [acceptTrainingAssignmentSubmission, hcheck] at hafter
    rw [(pushAuditEvent_frame _ _).2.1] at hafter
    simp only [updateAssignment, (expireAssignmentsLocked_frame s _).2.1] at hafter
    exact hafter
  have hfound := find?_updateFirst (p := fun a : PersistedAssignmentLease => a.assignmentId == id)
    (f := submitAssignment (currentTimestamp now)) (fun _ ha => ha)
    (s.assignments.map (lapse (currentTimestamp now)))
  rw [hassignments, hx, Option.map_some] at hfound
  rw [leaseNamed_lapse, hfound, Option.map_some] at hx
  have hsubmitted := lapse_leased.mp ((congrArg PersistedAssignmentLease.status
    (Option.some.inj hx)).trans hleased)
  cases hsubmitted.1

theorem accept_unwritten (s : StateStore) (t m clientId jobId id : String) (round version : ℤ)
    (now : ℕ) :
    Unwritten s (acceptTrainingAssignmentSubmission s t m clientId jobId id round version now) ↔
      NothingToWrite s now
        (.acceptTrainingAssignmentSubmission t m clientId jobId id round version) := by
  unfold NothingToWrite
  dsimp only
  cases hcheck : checkTrainingAssignmentSubmission (expireAssignmentsLocked s (currentTimestamp now))
      t m clientId jobId id round version (currentTimestamp now) with
  | noActiveJob =>
    apply iff_of_true
    · intro hsave
      simp only [acceptTrainingAssignmentSubmission, hcheck] at hsave
      cases hsave
    · intro a ha
      cases ha
  | refused errorMessage =>
    apply iff_of_true
    · intro hsave
      simp only [acceptTrainingAssignmentSubmission, hcheck] at hsave
      cases hsave
    · intro a ha
      cases ha
  | lapsed => exact absurd hcheck (check_after_sweep s t m clientId jobId id round version _)
  | passed x =>
    apply iff_of_false
    · rw [unwritten_saving]
      · exact accept_passed_ne hcheck
      · simp only [acceptTrainingAssignmentSubmission, hcheck]
    · exact fun h => h x rfl

theorem advance_unwritten (s : StateStore) (t m : String) (round version : ℤ) (now : ℕ) :
    Unwritten s (advanceTrainingJobRound s t m round version now) ↔
      NothingToWrite s now (.advanceTrainingJobRound t m round version) := by
  unfold NothingToWrite
  dsimp only
  cases hjob : getActiveTrainingJob s t m with
  | none =>
    apply iff_of_true
    · intro hsave
      simp only [advanceTrainingJobRound, hjob] at hsave
      cases hsave
    · rfl
  | some job =>
    apply iff_of_false
    · rw [unwritten_saving (by simp only [advanceTrainingJobRound, hjob])]
      intro h
      have htrainingJobs := congrArg StateStore.trainingJobs h
      simp only [advanceTrainingJobRound, hjob] at htrainingJobs
      rw [(pushAuditEvent_frame _ _).1] at htrainingJobs
      unfold updateActiveTrainingJob at htrainingJobs
      dsimp only at htrainingJobs
      rw [updateLast_eq_self hjob] at htrainingJobs
      have hcompleted := congrArg PersistedTrainingJobRecord.completedRounds htrainingJobs
      dsimp only at hcompleted
      omega
    · exact Option.some_ne_none job

theorem upsertWorker_unwritten (s : StateStore) (record : PersistedWorkerRecord) (now : ℕ) :
    Unwritten s (upsertWorker s record now) ↔ NothingToWrite s now (.upsertWorker record) := by
  rw [unwritten_saving rfl]
  unfold NothingToWrite
  dsimp only
  cases hfound : s.workers.find? (fun w => w.workerId == record.workerId) with
  | none =>
    apply iff_of_false
    · intro h
      have hworkers := congrArg StateStore.workers h
      simp only [upsertWorker, hfound, push_workers] at hworkers
      exact append_singleton_ne _ _ hworkers
    · rintro ⟨existing, h, -⟩
      cases h
  | some existing =>
    have hstore : (upsertWorker s record now).store = pushAuditEvent { s with
        workers := updateFirst (fun w => w.workerId == record.workerId)
          (fun _ => savedWorker (some existing) record now) s.workers }
        ⟨currentTimestamp now, "worker_upserted",
          (savedWorker (some existing) record now).tenantId,
          (savedWorker (some existing) record now).modelId,
          (savedWorker (some existing) record now).trainerClientId,
          "Worker " ++ (savedWorker (some existing) record now).workerId ++
            " registered launcher " ++ (savedWorker (some existing) record now).launcher⟩ := by
      simp only [upsertWorker, hfound]
      rfl
    rw [hstore, push_eq_iff, workers_eq_iff, updateFirst_eq_self, hfound]
    · simp only [Option.some.injEq, forall_eq', exists_eq_left']
      constructor
      · rintro ⟨hsame, hfull⟩
        rw [hsame] at hfull
        exact ⟨hsame.symm, hfull⟩
      · rintro ⟨hsame, hfull⟩
        have hsaved : savedWorker (some existing) record now = existing := hsame.symm
        rw [hsaved]
        exact ⟨rfl, hfull⟩
    · rfl
    · rfl

theorem occupyWorker_eq_self (now taskId : String) (w : PersistedWorkerRecord) :
    occupyWorker now taskId w = w ↔
      w.status = .leased ∧ w.lastHeartbeatAt = now ∧ w.activeTaskId = taskId := by
  obtain ⟨_⟩ := w
  unfold occupyWorker
  simp only [PersistedWorkerRecord.mk.injEq, true_and]
  constructor
  · rintro ⟨hstatus, hbeat, htask⟩
    exact ⟨hstatus.symm, hbeat.symm, htask.symm⟩
  · rintro ⟨hstatus, hbeat, htask⟩
    exact ⟨hstatus.symm, hbeat.symm, htask.symm⟩

theorem leaseWorkerTask_unwritten (s : StateStore) (worker : PersistedWorkerRecord)
    (assignment : PersistedAssignmentLease) (job : PersistedTrainingJobRecord)
    (dataset : PersistedDatasetRecord) (now : ℕ) :
    Unwritten s (leaseWorkerTask s worker assignment job dataset now) ↔
      NothingToWrite s now (.leaseWorkerTask worker assignment job dataset) := by
  unfold NothingToWrite
  dsimp only
  cases hfound : s.workerTasks.find? (isTaskFor assignment.assignmentId worker.workerId) with
  | none =>
    have hmissing := hfound
    unfold isTaskFor at hmissing
    apply iff_of_false
    · rw [unwritten_saving (by simp only [leaseWorkerTask, hmissing])]
      intro h
      have htasks := congrArg StateStore.workerTasks h
      simp only [leaseWorkerTask, hmissing, push_workerTasks] at htasks
      exact append_singleton_ne _ _ htasks
    · rintro ⟨task, h, -⟩
      cases h
  | some task =>
    have hknown := hfound
    unfold isTaskFor at hknown
    have hstore : (leaseWorkerTask s worker assignment job dataset now).store = { s with
        workerTasks := updateFirst (isTaskFor assignment.assignmentId worker.workerId)
          (fun _ => { task with updatedAt := currentTimestamp now }) s.workerTasks
        workers := s.workers.map (fun w => if w.workerId == worker.workerId then
          occupyWorker (currentTimestamp now) task.taskId w else w) } := by
      simp only [leaseWorkerTask, hknown]
      rfl
    rw [unwritten_saving (by simp only [leaseWorkerTask, hknown]), hstore, tasks_eq_iff,
      updateFirst_eq_self, map_eq_self, hfound]
    simp only [Option.some.injEq, forall_eq', exists_eq_left']
    have htask : { task with updatedAt := currentTimestamp now } = task ↔
        task.updatedAt = currentTimestamp now := by
      obtain ⟨_⟩ := task
      simp only [PersistedWorkerTaskRecord.mk.injEq, true_and]
      exact eq_comm
    have hworker : ∀ w : PersistedWorkerRecord, (if w.workerId == worker.workerId then
        occupyWorker (currentTimestamp now) task.taskId w else w) = w ↔
          (w.workerId = worker.workerId → w.status = .leased ∧
            w.lastHeartbeatAt = currentTimestamp now ∧ w.activeTaskId = task.taskId) := by
      intro w
      by_cases hsame : w.workerId = worker.workerId
      · rw [if_pos (by simpa using hsame), occupyWorker_eq_self]
        simp [hsame]
      · rw [if_neg (by simpa using hsame)]
        simp [hsame]
    simp only [htask, hworker]

theorem reportedTask_eq_self (task : PersistedWorkerTaskRecord) (status : TaskStatus)
    (detail : String) (progressPercent : ℤ) (now : ℕ) :
    reportedTask task status detail progressPercent (currentTimestamp now) = task ↔
      status = task.status ∧ task.detail = detail ∧
        task.progressPercent = max 0 (min 100 progressPercent) ∧
        task.updatedAt = currentTimestamp now ∧
        (task.status = .running → task.startedAt ≠ "") ∧
        (isFinalReport task.status = true → task.completedAt ≠ "") := by
  have hnow := currentTimestamp_ne_empty now
  have hstamp : ∀ (b : Prop) [Decidable b] (text : String),
      (if b ∧ text = "" then currentTimestamp now else text) = text ↔ (b → text ≠ "") := by
    intro b _ text
    by_cases hb : b
    · by_cases htext : text = ""
      · simp [hb, htext, hnow]
      · simp [htext]
    · simp [hb]
  obtain ⟨_⟩ := task
  unfold reportedTask
  simp only [PersistedWorkerTaskRecord.mk.injEq, true_and]
  constructor
  · rintro ⟨rfl, rfl, rfl, hstarted, hcompleted, rfl⟩
    exact ⟨rfl, rfl, rfl, rfl, (hstamp _ _).mp hstarted, (hstamp _ _).mp hcompleted⟩
  · rintro ⟨rfl, rfl, rfl, rfl, hstarted, hcompleted⟩
    exact ⟨rfl, rfl, rfl, (hstamp _ _).mpr hstarted, (hstamp _ _).mpr hcompleted, rfl⟩

theorem reportToWorker_eq_self (now : String) (task : PersistedWorkerTaskRecord)
    (w : PersistedWorkerRecord) : reportToWorker now task w = w ↔
      w.lastHeartbeatAt = now ∧
        (task.status = .running → w.status = .busy ∧ w.activeTaskId = task.taskId) ∧
        (task.status = .leased → w.status = .leased ∧ w.activeTaskId = task.taskId) ∧
        (isFinalReport task.status = true → w.status = .idle ∧
          (w.activeTaskId = task.taskId → task.taskId = "")) := by
  obtain ⟨_, _, _, _, _, _, _, _, _, _, _, activeTaskId⟩ := w
  unfold reportToWorker
  cases hstatus : task.status with
  | missed => grind [isFinalReport]
  | leased => grind [isFinalReport]
  | running => grind [isFinalReport]
  | _ => grind [isFinalReport]

theorem beatWorker_eq_self (activeTaskId now : String) (w : PersistedWorkerRecord) :
    beatWorker activeTaskId now w = w ↔ w.lastHeartbeatAt = now ∧
      (activeTaskId ≠ "" → w.status = .busy ∧ w.activeTaskId = activeTaskId) ∧
      (activeTaskId = "" → w.status ≠ .busy) := by
  obtain ⟨_, _, _, _, _, _, _, _, status, _, _, _⟩ := w
  unfold beatWorker
  by_cases htask : activeTaskId = ""
  · cases status with
    | idle => simp [htask, eq_comm]
    | leased => simp [htask, eq_comm]
    | busy => simp [htask]
  · simp only [ne_eq, htask, not_false_eq_true, if_true, PersistedWorkerRecord.mk.injEq]
    grind

theorem updateWorkerTaskStatus_unwritten (s : StateStore) (workerId taskId : String)
    (status : Option TaskStatus) (detail : String) (progressPercent : ℤ) (now : ℕ) :
    Unwritten s (updateWorkerTaskStatus s workerId taskId status detail progressPercent now) ↔
      NothingToWrite s now
        (.updateWorkerTaskStatus workerId taskId status detail progressPercent) := by
  unfold NothingToWrite
  dsimp only
  cases hfound : s.workerTasks.find? (fun task => task.taskId == taskId) with
  | none =>
    apply iff_of_true
    · intro hsave
      simp only [updateWorkerTaskStatus, hfound] at hsave
      cases hsave
    · intro task h
      cases h
  | some task =>
    simp only [Option.some.injEq, forall_eq']
    by_cases hown : task.workerId = workerId
    · subst hown
      generalize hreport : reportedTask task (status.getD task.status) detail progressPercent
        (currentTimestamp now) = report
      have hstore : (updateWorkerTaskStatus s task.workerId taskId status detail progressPercent
          now).store = pushAuditEvent { s with
            workerTasks := updateFirst (fun task => task.taskId == taskId) (fun _ => report)
              s.workerTasks
            workers := updateFirst (fun w => w.workerId == task.workerId)
              (reportToWorker (currentTimestamp now) report) s.workers }
          ⟨currentTimestamp now, "worker_task_status", report.tenantId, report.modelId,
            report.trainerClientId, "Worker " ++ task.workerId ++ " set task " ++ taskId ++ " to " ++
              taskStatusText report.status⟩ := by
        subst hreport
        simp only [updateWorkerTaskStatus, hfound, ne_eq, not_true_eq_false, if_false]
        rfl
      rw [unwritten_saving (by simp only [updateWorkerTaskStatus, hfound, ne_eq, not_true_eq_false,
        if_false]), hstore, push_eq_iff, tasks_eq_iff, updateFirst_eq_self,
        updateFirst_eq_self, hfound]
      · simp only [Option.some.injEq, forall_eq']
        constructor
        · rintro ⟨⟨hsame, hworkers⟩, hfull⟩ -
          rw [hsame] at hworkers hfull
          refine ⟨?_, ?_, hfull⟩
          · rw [← reportedTask_eq_self, hreport, hsame]
          · intro w hw
            exact (reportToWorker_eq_self _ task w).mp (hworkers w hw)
        · intro h
          obtain ⟨hkept, hworkers, hfull⟩ := h trivial
          rw [← reportedTask_eq_self, hreport] at hkept
          rw [hkept]
          refine ⟨⟨rfl, ?_⟩, hfull⟩
          intro w hw
          exact (reportToWorker_eq_self _ task w).mpr (hworkers w hw)
      · rfl
      · rfl
    · apply iff_of_true
      · intro hsave
        simp only [updateWorkerTaskStatus, hfound, hown, ne_eq, not_false_eq_true, if_true] at hsave
        cases hsave
      · exact fun h => absurd h hown

theorem recordWorkerHeartbeat_unwritten (s : StateStore) (workerId activeTaskId detail : String)
    (now : ℕ) : Unwritten s (recordWorkerHeartbeat s workerId activeTaskId detail now) ↔
      NothingToWrite s now (.recordWorkerHeartbeat workerId activeTaskId detail) := by
  unfold NothingToWrite
  dsimp only
  cases hfound : s.workers.find? (fun w => w.workerId == workerId) with
  | none =>
    apply iff_of_true
    · intro hsave
      simp only [recordWorkerHeartbeat, hfound] at hsave
      cases hsave
    · intro w h
      cases h
  | some worker =>
    simp only [Option.some.injEq, forall_eq']
    have hstore : (recordWorkerHeartbeat s workerId activeTaskId detail now).store =
        if detail = "" then { s with
          workers := updateFirst (fun w => w.workerId == workerId)
            (beatWorker activeTaskId (currentTimestamp now)) s.workers }
        else pushAuditEvent { s with
          workers := updateFirst (fun w => w.workerId == workerId)
            (beatWorker activeTaskId (currentTimestamp now)) s.workers }
          ⟨currentTimestamp now, "worker_heartbeat", worker.tenantId, worker.modelId,
            worker.trainerClientId, "Worker " ++ workerId ++ ": " ++ detail⟩ := by
      simp only [recordWorkerHeartbeat, hfound]
      rfl
    rw [unwritten_saving (by simp only [recordWorkerHeartbeat, hfound]), hstore]
    by_cases hdetail : detail = ""
    · rw [if_pos hdetail, workers_eq_iff, updateFirst_eq_self, hfound]
      simp [hdetail, beatWorker_eq_self]
    · rw [if_neg hdetail, push_eq_iff, workers_eq_iff, updateFirst_eq_self, hfound]
      · simp [hdetail, beatWorker_eq_self]
      · rfl
      · rfl

theorem perform_unwritten (s : StateStore) (now : ℕ) (op : Operation) :
    Unwritten s (perform s now op) ↔ NothingToWrite s now op := by
  cases op with
  | recordClientRegistration record => exact registration_unwritten s record now
  | updateClientLastRound t m clientId round => exact lastRound_unwritten s t m clientId round now
  | recordWeightSubmission t m clientId round =>
    exact submission_unwritten s t m clientId round now
  | recordAggregatedModel t m round path strategy keyVersion clientCount weightDimension =>
    exact aggregated_unwritten s t m round path strategy keyVersion clientCount weightDimension now
  | rollbackModel t m version => exact rollback_unwritten s t m version now
  | updateActiveKeyVersion version => exact keyVersion_unwritten s version now
  | recordAuditEvent event => exact audit_unwritten s event now
  | upsertDataset record => exact dataset_unwritten s record now
  | createTrainingJob record => exact job_unwritten s record now
  | leaseTrainingAssignment t m clientId version minClients ttl =>
    exact lease_unwritten s t m clientId version minClients ttl now
  | validateTrainingAssignmentSubmission t m clientId jobId id round version =>
    exact validate_unwritten s t m clientId jobId id round version now
  | acceptTrainingAssignmentSubmission t m clientId jobId id round version =>
    exact accept_unwritten s t m clientId jobId id round version now
  | advanceTrainingJobRound t m round version => exact advance_unwritten s t m round version now
  | upsertWorker record => exact upsertWorker_unwritten s record now
  | leaseWorkerTask worker assignment job dataset =>
    exact leaseWorkerTask_unwritten s worker assignment job dataset now
  | updateWorkerTaskStatus workerId taskId status detail progressPercent =>
    exact updateWorkerTaskStatus_unwritten s workerId taskId status detail progressPercent now
  | recordWorkerHeartbeat workerId activeTaskId detail =>
    exact recordWorkerHeartbeat_unwritten s workerId activeTaskId detail now

/-- An operation whose save fails leaves the store as it was exactly if it had
nothing to write. -/
theorem failed_write_iff (path : String) (s : StateStore) (files : Files FileText) (now : ℕ)
    (op : Operation) (result : SaveResult) :
    LeavesStore s (call path s files now op result) ↔
      result = .saved ∨ NothingToWrite s now op := by
  rw [← perform_unwritten]
  unfold LeavesStore call Unwritten
  dsimp only
  by_cases hsave : (perform s now op).save = true
  · rw [if_pos hsave]
    by_cases hresult : result = .saved
    · subst hresult
      rw [saveLocked_saved]
      simp
    · obtain ⟨⟨what, hwhat⟩, -⟩ := saveLocked_failed path (perform s now op).store files hresult
      rw [hwhat]
      simp [hsave, hresult]
  · rw [if_neg hsave]
    simp [hsave]

/-- A submission is counted although nothing was saved. -/
theorem counted_without_save : ¬ LeavesStore (emptyStore 1000)
    (call "state.json" (emptyStore 1000) ⟨none, none⟩ 0
      (.recordWeightSubmission "t" "m" "c" 1) .notFlushed) := by
  rw [failed_write_iff]
  simp [NothingToWrite]

end PqFl.FailedSaves
