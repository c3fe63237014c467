import Mathlib.Data.List.DropRight
import PqFl.LiveLeases

/-!
# The audit log

An operation may write several events, on more than one path, and the log is
cut back to its retention each time. What is left is always the end of the
sequence of all events.
-/

set_option autoImplicit false

namespace PqFl.AuditLog
open PqFl.Identifiers PqFl.Timestamps PqFl.StoreRecords PqFl.StateStore PqFl.ListUpdate
open PqFl.StoreRuns PqFl.Runs PqFl.WorkerSteps
open PqFl.LiveLeases (runningJob_fields)

section
variable {α β : Type}

theorem rtake_of_length_le {l : List α} {n : ℕ} (h : l.length ≤ n) : l.rtake n = l := by
  rw [List.rtake, Nat.sub_eq_zero_of_le h, List.drop_zero]

theorem length_rtake (l : List α) (n : ℕ) : (l.rtake n).length = min n l.length := by
  rw [List.rtake, List.length_drop]
  omega

theorem rtake_append_rtake (l m : List α) (n : ℕ) : (l.rtake n ++ m).rtake n = (l ++ m).rtake n := by
  by_cases h : l.length ≤ n
  · rw [rtake_of_length_le h]
  · have hlength : (l.rtake n).length = n := by
      rw [length_rtake]
      omega
    have hkept : (l.rtake n ++ m).length - n = m.length := by
      rw [List.length_append]
      omega
    have hall : (l ++ m).length - n = (l.length - n) + m.length := by
      rw [List.length_append]
      omega
    calc (l.rtake n ++ m).rtake n
      _ = (l.drop (l.length - n) ++ m).drop m.length := congrArg (List.drop · _) hkept
      _ = ((l ++ m).drop (l.length - n)).drop m.length := by
        rw [List.drop_append_of_le_length (Nat.sub_le _ _)]
      _ = (l ++ m).rtake n := by rw [List.drop_drop, List.rtake, hall]

theorem rtake_rtake (l : List α) (n k : ℕ) : (l.rtake n).rtake k = l.rtake (min k n) := by
  rw [List.rtake, length_rtake, List.rtake, List.rtake, List.drop_drop]
  congr 1
  omega

theorem map_rtake (f : α → β) (l : List α) (n : ℕ) : (l.rtake n).map f = (l.map f).rtake n := by
  rw [List.rtake, List.rtake, List.map_drop, List.length_map]

end

/-- `ListAuditEvents` counts back from the end of the log. -/
def listAuditEvents (s : StateStore) (limit : ℕ) : List PersistedAuditEvent :=
  List.ofFn (fun i : Fin (min limit s.auditEvents.length) =>
    s.auditEvents.get ⟨s.auditEvents.length - 1 - i, by omega⟩)

theorem listAuditEvents_eq (s : StateStore) (limit : ℕ) :
    listAuditEvents s limit = (s.auditEvents.rtake limit).reverse := by
  apply List.ext_getElem
  · rw [listAuditEvents, List.length_ofFn, List.length_reverse, length_rtake]
  · intro i h h'
    simp only [listAuditEvents, List.getElem_ofFn, List.getElem_reverse, List.get_eq_getElem,
      List.rtake, List.getElem_drop]
    rw [listAuditEvents, List.length_ofFn] at h
    congr 1
    rw [List.length_drop]
    omega

def expiryEvents (s : StateStore) (now : String) : List PersistedAuditEvent :=
  (s.assignments.filter (hasLapsed now)).map (fun a =>
    ⟨now, "assignment_expired", a.tenantId, a.modelId, a.clientId,
      "Assignment " ++ a.assignmentId ++ " expired"⟩)

def leaseEvents (s : StateStore) (t m c : String) (v n ttl : ℤ) (now : ℕ) :
    List PersistedAuditEvent :=
  let time := currentTimestamp now
  match getActiveTrainingJob s t m with
  | none => []
  | some job =>
    let live := isLiveLease job.jobId (max 1 job.currentRound) time
    if job.targetRounds > 0 ∧ job.completedRounds ≥ job.targetRounds then []
    else if s.assignments.any (fun a => live a && a.clientId == c) then []
    else if roundCapacity job n ≤ (s.assignments.filter live).length then []
    else [⟨time, "assignment_leased", normalizeTenant t, normalizeModel m, c,
      "Issued assignment " ++ (newLease job t m c v ttl now).assignmentId ++ " for round " ++
        toString (max 1 job.currentRound)⟩]

/-- The events which an operation writes, in this order. -/
def emits (s : StateStore) (now : ℕ) : Operation → List PersistedAuditEvent
  | .recordClientRegistration _ => []
  | .updateClientLastRound _ _ _ _ => []
  | .recordWeightSubmission t m c round =>
    [⟨currentTimestamp now, "weight_submission", normalizeTenant t, normalizeModel m, c,
      "Accepted submission for round " ++ toString round⟩]
  | .recordAggregatedModel t m round _ _ _ _ _ =>
    [⟨currentTimestamp now, "model_aggregated", normalizeTenant t, normalizeModel m, "",
      "Stored model version " ++ toString (nextVersion s.models (normalizeTenant t)
        (normalizeModel m)) ++ " for round " ++ toString round⟩]
  | .rollbackModel t m version =>
    if s.models.any (isVersionOf (normalizeTenant t) (normalizeModel m) version) then
      [⟨currentTimestamp now, "model_rollback", normalizeTenant t, normalizeModel m, "",
        "Activated model version " ++ toString version⟩]
    else []
  | .updateActiveKeyVersion version =>
    if s.activeKeyVersion = version then []
    else [⟨currentTimestamp now, "key_rotation", "default-tenant", "default-model", "",
      "Active at-rest key version is now " ++ toString version⟩]
  | .recordAuditEvent event =>
    [{ event with
      timestamp := if event.timestamp = "" then currentTimestamp now else event.timestamp
      tenantId := normalizeTenant event.tenantId
      modelId := normalizeModel event.modelId }]
  | .upsertDataset record =>
    [⟨currentTimestamp now, "dataset_upserted", normalizeTenant record.tenantId,
      normalizeModel record.modelId, "",
      "Dataset " ++ record.datasetId ++ " now points to " ++ record.storageUri⟩]
  | .createTrainingJob record =>
    [⟨currentTimestamp now, "training_job_created", normalizeTenant record.tenantId,
      normalizeModel record.modelId, "",
      "Created job " ++ (createTrainingJob s record now).value.jobId ++ " for dataset " ++
        record.datasetId⟩]
  | .leaseTrainingAssignment t m c v n ttl =>
    expiryEvents s (currentTimestamp now) ++
      leaseEvents (expireAssignmentsLocked s (currentTimestamp now)) t m c v n ttl now
  | .validateTrainingAssignmentSubmission _ _ _ _ _ _ _ => expiryEvents s (currentTimestamp now)
  | .acceptTrainingAssignmentSubmission t m c jobId id round version =>
    expiryEvents s (currentTimestamp now) ++
      match checkTrainingAssignmentSubmission (expireAssignmentsLocked s (currentTimestamp now))
          t m c jobId id round version (currentTimestamp now) with
      | .passed _ => [⟨currentTimestamp now, "assignment_submitted", normalizeTenant t,
          normalizeModel m, c, "Accepted assignment " ++ id⟩]
      | _ => []
  | .advanceTrainingJobRound t m round _ =>
    match getActiveTrainingJob s t m with
    | none => []
    | some job => [⟨currentTimestamp now, "training_round_advanced", normalizeTenant t,
        normalizeModel m, "", "Job " ++ job.jobId ++ " advanced after round " ++ toString round⟩]
  | .upsertWorker record =>
    [⟨currentTimestamp now, "worker_upserted", normalizeTenant record.tenantId,
      normalizeModel record.modelId, record.trainerClientId,
      "Worker " ++ record.workerId ++ " registered launcher " ++ record.launcher⟩]
  | .leaseWorkerTask worker assignment _ _ =>
    if s.workerTasks.any (fun task => task.assignmentId == assignment.assignmentId &&
        task.workerId == worker.workerId) then []
    else [⟨currentTimestamp now, "worker_task_leased", assignment.tenantId, assignment.modelId,
      worker.trainerClientId, "Leased worker task " ++ (assignment.assignmentId ++ "::worker:" ++
        worker.workerId) ++ " to " ++ worker.workerId⟩]
  | .updateWorkerTaskStatus workerId taskId status _ _ =>
    match s.workerTasks.find? (fun task => task.taskId == taskId) with
    | none => []
    | some task =>
      if task.workerId ≠ workerId then []
      else [⟨currentTimestamp now, "worker_task_status", task.tenantId, task.modelId,
        task.trainerClientId, "Worker " ++ workerId ++ " set task " ++ taskId ++ " to " ++
          taskStatusText (status.getD task.status)⟩]
  | .recordWorkerHeartbeat workerId _ detail =>
    match s.workers.find? (fun w => w.workerId == workerId) with
    | none => []
    | some worker =>
      if detail = "" then []
      else [⟨currentTimestamp now, "worker_heartbeat", worker.tenantId, worker.modelId,
        worker.trainerClientId, "Worker " ++ workerId ++ ": " ++ detail⟩]

/-- The log has taken these events, and lost old ones where there was no room. -/
structure Appends (s s' : StateStore) (events : List PersistedAuditEvent) : Prop where
  retention : s'.auditRetention = s.auditRetention
  log : s'.auditEvents = (s.auditEvents ++ events).rtake s.auditRetention

theorem trim_rtake (s : StateStore) : trimAuditEventsLocked s =
    { s with auditEvents := s.auditEvents.rtake s.auditRetention } := by
  unfold trimAuditEventsLocked
  split
  · rfl
  · rename_i hfits
    rw [rtake_of_length_le (not_lt.mp hfits)]

theorem push_rtake (s : StateStore) (event : PersistedAuditEvent) : pushAuditEvent s event =
    { s with auditEvents := (s.auditEvents ++ [event]).rtake s.auditRetention } := trim_rtake _

theorem Appends.none {s s' : StateStore} (hbound : s.auditEvents.length ≤ s.auditRetention)
    (hlog : s'.auditEvents = s.auditEvents) (hretention : s'.auditRetention = s.auditRetention) :
    Appends s s' [] := by
  refine ⟨hretention, ?_⟩
  rw [hlog, List.append_nil, rtake_of_length_le hbound]

theorem Appends.of_same {s s' s'' : StateStore} {events : List PersistedAuditEvent}
    (h : Appends s s' events) (hlog : s''.auditEvents = s'.auditEvents)
    (hretention : s''.auditRetention = s'.auditRetention) : Appends s s'' events :=
  ⟨hretention.trans h.retention, hlog.trans h.log⟩

theorem Appends.push {s s' : StateStore} {events : List PersistedAuditEvent}
    (h : Appends s s' events) (event : PersistedAuditEvent) :
    Appends s (pushAuditEvent s' event) (events ++ [event]) := by
  rw [push_rtake]
  refine ⟨h.retention, ?_⟩
  show (s'.auditEvents ++ [event]).rtake s'.auditRetention = _
  rw [h.log, h.retention, rtake_append_rtake, List.append_assoc]

theorem Appends.one {s s' : StateStore} (hlog : s'.auditEvents = s.auditEvents)
    (hretention : s'.auditRetention = s.auditRetention) (event : PersistedAuditEvent) :
    Appends s (pushAuditEvent s' event) [event] := by
  rw [push_rtake]
  refine ⟨hretention, ?_⟩
  show (s'.auditEvents ++ [event]).rtake s'.auditRetention = _
  rw [hlog, hretention]

theorem Appends.expire {s : StateStore} (hbound : s.auditEvents.length ≤ s.auditRetention)
    (now : String) : Appends s (expireAssignmentsLocked s now) (expiryEvents s now) := by
  unfold expireAssignmentsLocked
  dsimp only
  split
  · rename_i hnone
    have hempty : expiryEvents s now = [] := by
      rw [expiryEvents, List.isEmpty_iff.mp hnone, List.map_nil]
    rw [hempty]
    refine .none hbound ?_ rfl
    show s.auditEvents ++ expiryEvents s now = s.auditEvents
    rw [hempty, List.append_nil]
  · rw [trim_rtake]
    exact ⟨rfl, rfl⟩

section
variable {s : StateStore} (hbound : s.auditEvents.length ≤ s.auditRetention)
include hbound

theorem lease_appends (t m c : String) (v n ttl : ℤ) (now : ℕ) :
    Appends s (leaseTrainingAssignment s t m c v n ttl now).store
      (expiryEvents s (currentTimestamp now) ++
        leaseEvents (expireAssignmentsLocked s (currentTimestamp now)) t m c v n ttl now) := by
  have hswept := Appends.expire hbound (currentTimestamp now)
  have hsweptNone := hswept
  rw [← List.append_nil (expiryEvents s (currentTimestamp now))] at hsweptNone
  unfold leaseTrainingAssignment leaseEvents
  dsimp only
  generalize expireAssignmentsLocked s (currentTimestamp now) = swept at *
  cases hjob : getActiveTrainingJob swept t m with
  | none => exact hsweptNone
  | some job =>
    obtain ⟨hid, hround, hcapacity⟩ := runningJob_fields (currentTimestamp now) job
    dsimp only
    split
    · exact hsweptNone.of_same rfl rfl
    · have hleases : (updateActiveTrainingJob swept t m (fun _ =>
          runningJob (currentTimestamp now) job)).assignments = swept.assignments := rfl
      unfold grantLease
      dsimp only
      rw [hid, hround, hcapacity, newLease_runningJob, hleases]
      split
      · rename_i x hx
        have hany : (swept.assignments.any (fun a => isLiveLease job.jobId (max 1 job.currentRound)
            (currentTimestamp now) a && a.clientId == c)) = true := by
          rw [← List.isSome_find?]
          exact Option.isSome_iff_exists.mpr ⟨x, hx⟩
        rw [if_pos hany]
        exact hsweptNone.of_same rfl rfl
      · rename_i hnone
        have hany : ¬ (swept.assignments.any (fun a => isLiveLease job.jobId
            (max 1 job.currentRound) (currentTimestamp now) a && a.clientId == c)) = true := by
          rw [← List.isSome_find?, Option.isSome_iff_ne_none, not_not]
          exact hnone
        rw [if_neg hany]
        by_cases hfull : roundCapacity job n ≤ ((swept.assignments.filter (isLiveLease job.jobId
            (max 1 job.currentRound) (currentTimestamp now))).length : ℤ)
        · rw [if_pos hfull, if_pos hfull]
          exact hsweptNone.of_same rfl rfl
        · rw [if_neg hfull, if_neg hfull]
          exact (hswept.of_same (by rfl) (by rfl)).push _

theorem validate_appends (t m c jobId id : String) (r v : ℤ) (now : ℕ) :
    Appends s (validateTrainingAssignmentSubmission s t m c jobId id r v now).store
      (expiryEvents s (currentTimestamp now)) := by
  have hswept := Appends.expire hbound (currentTimestamp now)
  unfold validateTrainingAssignmentSubmission
  dsimp only
  split
  · exact hswept
  · exact hswept
  · exact hswept.of_same rfl rfl
  · exact hswept

theorem accept_appends (t m c jobId id : String) (r v : ℤ) (now : ℕ) :
    Appends s (acceptTrainingAssignmentSubmission s t m c jobId id r v now).store
      (emits s now (.acceptTrainingAssignmentSubmission t m c jobId id r v)) := by
  have hswept := Appends.expire hbound (currentTimestamp now)
  have hsweptNone := hswept
  rw [← List.append_nil (expiryEvents s (currentTimestamp now))] at hsweptNone
  unfold acceptTrainingAssignmentSubmission emits
  dsimp only
  cases checkTrainingAssignmentSubmission (expireAssignmentsLocked s (currentTimestamp now)) t m c
      jobId id r v (currentTimestamp now) with
  | noActiveJob => exact hsweptNone
  | refused errorMessage => exact hsweptNone
  | lapsed => exact hsweptNone.of_same rfl rfl
  | passed assignment => exact (hswept.of_same (by rfl) (by rfl)).push _

theorem perform_appends (now : ℕ) (op : Operation) :
    Appends s (perform s now op).store (emits s now op) := by
  cases op with
  | recordClientRegistration record => exact .none hbound rfl rfl
  | updateClientLastRound t m c round => exact .none hbound rfl rfl
  | recordWeightSubmission t m c round => exact Appends.one (by rfl) (by rfl) _
  | recordAggregatedModel t m round path strategy keyVersion clientCount weightDimension =>
    exact Appends.one (by rfl) (by rfl) _
  | rollbackModel t m version =>
    simp only [perform, written, rollbackModel, emits]
    split
    · rename_i hnone
      rw [if_neg (by rw [← List.isSome_find?, hnone]; decide)]
      exact .none hbound rfl rfl
    · rename_i target htarget
      rw [if_pos (by rw [← List.isSome_find?, htarget]; rfl)]
      exact Appends.one (by rfl) (by rfl) _
  | updateActiveKeyVersion version =>
    simp only [perform, written, updateActiveKeyVersion, emits]
    split
    · exact .none hbound rfl rfl
    · exact Appends.one (by rfl) (by rfl) _
  | recordAuditEvent event => exact Appends.one (by rfl) (by rfl) _
  | upsertDataset record =>
    simp only [perform, written, upsertDataset, emits]
    split
    · exact Appends.one (by rfl) (by rfl) _
    · exact Appends.one (by rfl) (by rfl) _
  | createTrainingJob record => exact Appends.one (by rfl) (by rfl) _
  | leaseTrainingAssignment t m c v n ttl => exact lease_appends hbound t m c v n ttl now
  | validateTrainingAssignmentSubmission t m c jobId id r v =>
    exact validate_appends hbound t m c jobId id r v now
  | acceptTrainingAssignmentSubmission t m c jobId id r v =>
    exact accept_appends hbound t m c jobId id r v now
  | advanceTrainingJobRound t m r v =>
    simp only [perform, written, advanceTrainingJobRound, emits]
    cases getActiveTrainingJob s t m with
    | none => exact .none hbound rfl rfl
    | some job => exact Appends.one (by rfl) (by rfl) _
  | upsertWorker record =>
    simp only [perform, written, upsertWorker, emits]
    split
    · exact Appends.one (by rfl) (by rfl) _
    · exact Appends.one (by rfl) (by rfl) _
  | leaseWorkerTask worker assignment job dataset =>
    simp only [perform, written, leaseWorkerTask, emits]
    split
    · rename_i task htask
      rw [if_pos (by rw [← List.isSome_find?, htask]; rfl)]
      exact .none hbound rfl rfl
    · rename_i hnone
      rw [if_neg (by rw [← List.isSome_find?, hnone]; decide)]
      exact Appends.one (by rfl) (by rfl) _
  | updateWorkerTaskStatus workerId taskId status detail progressPercent =>
    simp only [perform, written, updateWorkerTaskStatus, emits]
    cases s.workerTasks.find? (fun task => task.taskId == taskId) with
    | none => exact .none hbound rfl rfl
    | some task =>
      dsimp only
      split
      · exact .none hbound rfl rfl
      · exact Appends.one (by rfl) (by rfl) _
  | recordWorkerHeartbeat workerId activeTaskId detail =>
    simp only [perform, written, recordWorkerHeartbeat, emits]
    cases s.workers.find? (fun w => w.workerId == workerId) with
    | none => exact .none hbound rfl rfl
    | some worker =>
      dsimp only
      split
      · exact .none hbound rfl rfl
      · exact Appends.one (by rfl) (by rfl) _

theorem load_appends (now : ℕ) : Appends (normalizedRecords s) (load s now).store
    (expiryEvents (normalizedRecords s) (currentTimestamp now)) := by
  have hnormal : (normalizedRecords s).auditEvents.length ≤ (normalizedRecords s).auditRetention := by
    rw [normalizedRecords, List.length_map]
    exact hbound
  have hswept := Appends.expire hnormal (currentTimestamp now)
  rw [load, trim_rtake]
  refine ⟨hswept.retention, ?_⟩
  show (expireAssignmentsLocked _ _).auditEvents.rtake _ = _
  rw [hswept.log, hswept.retention, rtake_rtake, min_self]

end

def normalizedEvent (e : PersistedAuditEvent) : PersistedAuditEvent := { e with
  tenantId := normalizeTenant e.tenantId
  modelId := normalizeModel e.modelId }

/-- A process with all events emitted so far, and those that were emitted when the file
was written. No step reads them. -/
structure Audited where
  process : StoreProcess
  emitted : List PersistedAuditEvent
  saved : List PersistedAuditEvent

/-- A new process goes on from what was saved, in the scopes as it reads them. -/
def emittedAfter (q : Audited) : StoreAction → List PersistedAuditEvent
  | .perform op now => q.emitted ++ emits q.process.store now op
  | .load now => q.saved.map normalizedEvent ++
      expiryEvents (normalizedRecords q.process.disk) (currentTimestamp now)

def savesLog (q : Audited) : StoreAction → Bool
  | .perform op now => (perform q.process.store now op).save
  | .load _ => true

def auditedStep (q : Audited) (a : StoreAction) : Option Audited :=
  (StoreRuns.step q.process a).map (fun p =>
    ⟨p, emittedAfter q a, if savesLog q a then emittedAfter q a else q.saved⟩)

def auditedStart (auditRetention : ℕ) : Audited := ⟨initial auditRetention, [], []⟩

/-- The store and its file both hold the end of what was emitted for them. -/
structure Windowed (retention : ℕ) (q : Audited) : Prop where
  retained : q.process.store.auditRetention = retention ∧ q.process.disk.auditRetention = retention
  store : q.process.store.auditEvents = q.emitted.rtake retention
  disk : q.process.disk.auditEvents = q.saved.rtake retention

theorem step_windowed {retention : ℕ} {q q' : Audited} (h : Windowed retention q) {a : StoreAction}
    (hs : auditedStep q a = some q') : Windowed retention q' := by
  have hbound : ∀ {x : StateStore} {l : List PersistedAuditEvent}, x.auditRetention = retention →
      x.auditEvents = l.rtake retention → x.auditEvents.length ≤ x.auditRetention := by
    intro x l hretention hlog
    rw [hlog, hretention, length_rtake]
    exact min_le_left _ _
  obtain ⟨p, hp, rfl⟩ := Option.map_eq_some_iff.mp hs
  cases a with
  | perform op now =>
    obtain rfl := Option.some.inj hp
    have hafter := perform_appends (hbound h.retained.1 h.store) now op
    have hlog : (perform q.process.store now op).store.auditEvents =
        (q.emitted ++ emits q.process.store now op).rtake retention := by
      rw [hafter.log, h.store, h.retained.1, rtake_append_rtake]
    have hretention := hafter.retention.trans h.retained.1
    cases hsave : (perform q.process.store now op).save with
    | true =>
      have hsaves : savesLog q (.perform op now) = true := hsave
      refine ⟨⟨hretention, ?_⟩, hlog, ?_⟩
      · rw [if_pos rfl]
        exact hretention
      · rw [if_pos rfl, if_pos hsaves]
        exact hlog
    | false =>
      have hsaves : ¬ savesLog q (.perform op now) = true := Bool.eq_false_iff.mp hsave
      refine ⟨⟨hretention, ?_⟩, hlog, ?_⟩
      · rw [if_neg (by decide)]
        exact h.retained.2
      · rw [if_neg (by decide), if_neg hsaves]
        exact h.disk
  | load now =>
    obtain rfl := Option.some.inj hp
    have hafter := load_appends (hbound h.retained.2 h.disk) now
    have hread : (normalizedRecords q.process.disk).auditEvents =
        (q.saved.map normalizedEvent).rtake retention := by
      rw [← map_rtake, ← h.disk]
      rfl
    have hlog : (load q.process.disk now).store.auditEvents = (q.saved.map normalizedEvent ++
        expiryEvents (normalizedRecords q.process.disk) (currentTimestamp now)).rtake retention := by
      have hretained : (normalizedRecords q.process.disk).auditRetention = retention := h.retained.2
      rw [hafter.log, hread, hretained, rtake_append_rtake]
    have hretention : (load q.process.disk now).store.auditRetention = retention :=
      hafter.retention.trans h.retained.2
    exact ⟨⟨hretention, hretention⟩, hlog, hlog⟩

theorem run_audited {retention : ℕ} {p : StoreProcess}
    (h : Reaches StoreRuns.step Free (initial retention) p) :
    ∃ q, Reaches auditedStep Free (auditedStart retention) q ∧ q.process = p := by
  induction h with
  | start => exact ⟨auditedStart retention, .start, rfl⟩
  | next _ _ hs ih =>
    obtain ⟨q, hq, rfl⟩ := ih
    exact ⟨_, hq.next trivial (congrArg (Option.map _) hs), rfl⟩

/-- After every operation the log is the end of what was emitted, as much of it as the
retention allows, and the listing gives its newest events, the newest first. -/
theorem audit_log_window {auditRetention : ℕ} {q : Audited}
    (h : Reaches auditedStep Free (auditedStart auditRetention) q) :
    q.process.store.auditEvents =
      q.emitted.rtake (min (max 1 auditRetention) q.emitted.length) ∧
    ∀ limit, listAuditEvents q.process.store limit =
      (q.emitted.rtake (min limit (min (max 1 auditRetention) q.emitted.length))).reverse := by
  have hstart : Windowed (max 1 auditRetention) (auditedStart auditRetention) :=
    { retained := ⟨rfl, rfl⟩
      store := (List.rtake_nil _).symm
      disk := (List.rtake_nil _).symm }
  have hwindowed : Windowed (max 1 auditRetention) q :=
    h.invariant (I := Windowed _) hstart (fun _ _ _ hi _ hs => step_windowed hi hs)
  have hwhole : ∀ n, q.emitted.rtake (min n q.emitted.length) = q.emitted.rtake n := by
    intro n
    rw [← rtake_rtake, rtake_of_length_le le_rfl]
  constructor
  · rw [hwhole, hwindowed.store]
  · intro limit
    rw [listAuditEvents_eq, hwindowed.store, rtake_rtake, ← min_assoc, hwhole]

/-- Two leases run out, and the next request sweeps both and issues a third. -/
def sweptTwice : List StoreAction := [
  .perform (.createTrainingJob (LiveLeases.sharedJob "t" "m")) 0,
  .perform (.leaseTrainingAssignment "t" "m" "a" 0 1 60) 0,
  .perform (.leaseTrainingAssignment "t" "m" "b" 0 1 60) 1,
  .perform (.leaseTrainingAssignment "t" "m" "a" 0 1 60) 100000]

/-- Six events are emitted, three of them by the last call; two are kept. -/
theorem audit_log_window_sweptTwice : ∃ q, Reaches auditedStep Free (auditedStart 2) q ∧
    q.emitted.length = 6 ∧ q.process.store.auditEvents = q.emitted.drop 4 ∧
    q.process.store.auditEvents = q.emitted.rtake (min (max 1 2) q.emitted.length) ∧
    ∀ limit, listAuditEvents q.process.store limit =
      (q.emitted.rtake (min limit (min (max 1 2) q.emitted.length))).reverse := by
  have htest : (exec auditedStep sweptTwice (auditedStart 2)).any (fun q =>
      q.emitted.length == 6) = true := by
    decide +kernel
  rw [Option.any_eq_true] at htest
  obtain ⟨q, hq, hlength⟩ := htest
  have hsix : q.emitted.length = 6 := beq_iff_eq.mp hlength
  obtain ⟨hlog, hlisted⟩ := audit_log_window (exec_reaches _ hq)
  refine ⟨q, exec_reaches _ hq, hsix, ?_, hlog, hlisted⟩
  rw [hlog, List.rtake, hsix]
  rfl

end PqFl.AuditLog
