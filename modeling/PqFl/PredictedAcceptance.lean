import PqFl.AuditLog

/-!
# The check of a submission and its acceptance

`ValidateTrainingAssignmentSubmission` and `AcceptTrainingAssignmentSubmission`
each write the decision out. The two copies are followed line by line here, and
come to what the store's operations do with the one check they share.
-/

set_option autoImplicit false

namespace PqFl.PredictedAcceptance
open PqFl.Identifiers PqFl.Timestamps PqFl.StoreRecords PqFl.StateStore PqFl.ListUpdate
open PqFl.StoreRuns PqFl.JobLedger PqFl.WorkerSteps PqFl.AuditLog PqFl.Runs

/-- What a loop over the assignments comes to. -/
structure Verdict where
  answer : Except String Unit
  assignments : List PersistedAssignmentLease
  accepted : Option PersistedAssignmentLease := none
  save : Bool := false

/-- The loop has gone past this assignment. -/
def Verdict.past (verdict : Verdict) (a : PersistedAssignmentLease) : Verdict :=
  { verdict with assignments := a :: verdict.assignments }

def validateLoop (tenantId modelId clientId assignmentId : String) (round baseModelVersion : ℤ)
    (now : String) : List PersistedAssignmentLease → Verdict
  | [] => { answer := .error "assignment not found", assignments := [] }
  | a::rest =>
    if a.assignmentId ≠ assignmentId then
      (validateLoop tenantId modelId clientId assignmentId round baseModelVersion now rest).past a
    else if a.clientId ≠ clientId ∨ a.tenantId ≠ tenantId ∨ a.modelId ≠ modelId then
      { answer := .error "assignment belongs to a different scope or client"
        assignments := a :: rest }
    else if a.status ≠ .leased then
      { answer := .error "assignment is not in a leasable state", assignments := a :: rest }
    else if a.expiresAt ≠ "" ∧ a.expiresAt ≤ now then
      { answer := .error "assignment lease expired"
        assignments := { a with
          status := .expired
          updatedAt := now
          detail := "Expired at submission time" } :: rest
        save := true }
    else if a.roundIndex ≠ round then
      { answer := .error "submission round does not match leased round", assignments := a :: rest }
    else if baseModelVersion > 0 ∧ a.baseModelVersion > 0 ∧
        a.baseModelVersion ≠ baseModelVersion then
      { answer := .error "submission base model version does not match assigned model version"
        assignments := a :: rest }
    else { answer := .ok (), assignments := a :: rest }

def acceptLoop (tenantId modelId clientId assignmentId : String) (round baseModelVersion : ℤ)
    (now : String) : List PersistedAssignmentLease → Verdict
  | [] => { answer := .error "assignment not found", assignments := [] }
  | a::rest =>
    if a.assignmentId ≠ assignmentId then
      (acceptLoop tenantId modelId clientId assignmentId round baseModelVersion now rest).past a
    else if a.clientId ≠ clientId ∨ a.tenantId ≠ tenantId ∨ a.modelId ≠ modelId then
      { answer := .error "assignment belongs to a different scope or client"
        assignments := a :: rest }
    else if a.status ≠ .leased then
      { answer := .error "assignment is not in a leasable state", assignments := a :: rest }
    else if a.expiresAt ≠ "" ∧ a.expiresAt ≤ now then
      { answer := .error "assignment lease expired"
        assignments := { a with
          status := .expired
          updatedAt := now
          detail := "Expired at submission time" } :: rest
        save := true }
    else if a.roundIndex ≠ round then
      { answer := .error "submission round does not match leased round", assignments := a :: rest }
    else if baseModelVersion > 0 ∧ a.baseModelVersion > 0 ∧
        a.baseModelVersion ≠ baseModelVersion then
      { answer := .error "submission base model version does not match assigned model version"
        assignments := a :: rest }
    else
      { answer := .ok ()
        assignments := { a with
          status := .submitted
          updatedAt := now
          detail := "Client submitted weights" } :: rest
        accepted := some a
        save := true }

/-- The loop over the tasks, with the loop over the workers inside it. -/
def submitTasks (now assignmentId : String) : List PersistedWorkerTaskRecord →
    List PersistedWorkerRecord → List PersistedWorkerTaskRecord × List PersistedWorkerRecord
  | [], workers => ([], workers)
  | task::tasks, workers =>
    if task.assignmentId = assignmentId then
      let rest := submitTasks now assignmentId tasks
        (updateFirst (fun w => w.workerId == task.workerId) (releaseWorker now task.taskId) workers)
      (submitTask now task :: rest.1, rest.2)
    else
      let rest := submitTasks now assignmentId tasks workers
      (task :: rest.1, rest.2)

def validateAsWritten (s : StateStore) (tenantId modelId clientId jobId assignmentId : String)
    (round baseModelVersion : ℤ) (now : ℕ) : Outcome (Except String Unit) :=
  let time := currentTimestamp now
  let s := expireAssignmentsLocked s time
  match getActiveTrainingJob s tenantId modelId with
  | none => ⟨.ok (), s, false⟩
  | some activeJob =>
    if jobId = "" ∨ assignmentId = "" then
      ⟨.error "assignment_id and job_id are required while a scheduled training job is active", s,
        false⟩
    else if jobId ≠ activeJob.jobId then
      ⟨.error "submission does not match the active training job", s, false⟩
    else
      let verdict := validateLoop (normalizeTenant tenantId) (normalizeModel modelId) clientId
        assignmentId round baseModelVersion time s.assignments
      ⟨verdict.answer, { s with assignments := verdict.assignments }, verdict.save⟩

def acceptAsWritten (s : StateStore) (tenantId modelId clientId jobId assignmentId : String)
    (round baseModelVersion : ℤ) (now : ℕ) : Outcome (Except String Unit) :=
  let time := currentTimestamp now
  let s := expireAssignmentsLocked s time
  match getActiveTrainingJob s tenantId modelId with
  | none => ⟨.ok (), s, false⟩
  | some activeJob =>
    if jobId = "" ∨ assignmentId = "" then
      ⟨.error "assignment_id and job_id are required while a scheduled training job is active", s,
        false⟩
    else if jobId ≠ activeJob.jobId then
      ⟨.error "submission does not match the active training job", s, false⟩
    else
      let verdict := acceptLoop (normalizeTenant tenantId) (normalizeModel modelId) clientId
        assignmentId round baseModelVersion time s.assignments
      match verdict.accepted with
      | none => ⟨verdict.answer, { s with assignments := verdict.assignments }, verdict.save⟩
      | some a =>
        let submitted := submitTasks time a.assignmentId s.workerTasks s.workers
        ⟨verdict.answer, pushAuditEvent { s with
          assignments := verdict.assignments
          workerTasks := submitted.1
          workers := submitted.2 } ⟨time, "assignment_submitted", normalizeTenant tenantId,
            normalizeModel modelId, clientId, "Accepted assignment " ++ assignmentId⟩, verdict.save⟩

/-- The checks of the assignment at which a loop stops. -/
def leaseCheck (tenantId modelId clientId : String) (round baseModelVersion : ℤ) (now : String)
    (a : PersistedAssignmentLease) : SubmissionCheck :=
  if a.clientId ≠ clientId ∨ a.tenantId ≠ tenantId ∨ a.modelId ≠ modelId then
    .refused "assignment belongs to a different scope or client"
  else if a.status ≠ .leased then .refused "assignment is not in a leasable state"
  else if a.expiresAt ≠ "" ∧ a.expiresAt ≤ now then .lapsed
  else if a.roundIndex ≠ round then .refused "submission round does not match leased round"
  else if baseModelVersion > 0 ∧ a.baseModelVersion > 0 ∧ a.baseModelVersion ≠ baseModelVersion then
    .refused "submission base model version does not match assigned model version"
  else .passed a

def submitLease (now : String) (a : PersistedAssignmentLease) : PersistedAssignmentLease :=
  { a with status := .submitted, updatedAt := now, detail := "Client submitted weights" }

def validated (id now : String) (l : List PersistedAssignmentLease) : SubmissionCheck → Verdict
  | .noActiveJob => { answer := .ok (), assignments := l }
  | .refused errorMessage => { answer := .error errorMessage, assignments := l }
  | .lapsed => {
      answer := .error "assignment lease expired"
      assignments := updateFirst (fun a => a.assignmentId == id) (expireAtSubmission now) l
      save := true }
  | .passed _ => { answer := .ok (), assignments := l }

def accepted (id now : String) (l : List PersistedAssignmentLease) : SubmissionCheck → Verdict
  | .passed a => {
      answer := .ok ()
      assignments := updateFirst (fun a => a.assignmentId == id) (submitLease now) l
      accepted := some a
      save := true }
  | check => validated id now l check

variable (t m c id : String) (r v : ℤ) (now : String)

theorem validateLoop_eq (l : List PersistedAssignmentLease) : validateLoop t m c id r v now l =
    ((l.find? (fun a => a.assignmentId == id)).map (fun a =>
      validated id now l (leaseCheck t m c r v now a))).getD
        { answer := .error "assignment not found", assignments := l } := by
  induction l with
  | nil => rfl
  | cons a l ih =>
    rw [validateLoop]
    by_cases hid : a.assignmentId = id
    · have hfirst : (a.assignmentId == id) = true := beq_iff_eq.mpr hid
      have hfound : (a :: l).find? (fun a => a.assignmentId == id) = some a :=
        List.find?_cons_of_pos hfirst
      have hlapse : updateFirst (fun a => a.assignmentId == id) (expireAtSubmission now) (a :: l) =
          expireAtSubmission now a :: l := if_pos hfirst
      rw [if_neg (not_not.mpr hid), hfound, Option.map_some, Option.getD_some, leaseCheck]
      split
      · rfl
      split
      · rfl
      split
      · rw [validated, hlapse]
        rfl
      split
      · rfl
      split
      · rfl
      · rfl
    · have hother : ¬ (a.assignmentId == id) = true := fun h => hid (beq_iff_eq.mp h)
      have hrest : (a :: l).find? (fun a => a.assignmentId == id) =
          l.find? (fun a => a.assignmentId == id) := List.find?_cons_of_neg hother
      rw [if_pos hid, ih, hrest]
      cases l.find? (fun a => a.assignmentId == id) with
      | none => rfl
      | some b =>
        simp only [Option.map_some, Option.getD_some]
        cases leaseCheck t m c r v now b with
        | noActiveJob => rfl
        | refused errorMessage => rfl
        | lapsed => rw [validated, validated, updateFirst, if_neg hother, Verdict.past]
        | passed x => rfl

theorem acceptLoop_eq (l : List PersistedAssignmentLease) : acceptLoop t m c id r v now l =
    ((l.find? (fun a => a.assignmentId == id)).map (fun a =>
      accepted id now l (leaseCheck t m c r v now a))).getD
        { answer := .error "assignment not found", assignments := l } := by
  induction l with
  | nil => rfl
  | cons a l ih =>
    rw [acceptLoop]
    by_cases hid : a.assignmentId = id
    · have hfirst : (a.assignmentId == id) = true := beq_iff_eq.mpr hid
      have hfound : (a :: l).find? (fun a => a.assignmentId == id) = some a :=
        List.find?_cons_of_pos hfirst
      have hhead : ∀ f, updateFirst (fun a => a.assignmentId == id) f (a :: l) = f a :: l :=
        fun f => if_pos hfirst
      rw [if_neg (not_not.mpr hid), hfound, Option.map_some, Option.getD_some, leaseCheck]
      split
      · rfl
      split
      · rfl
      split
      · rw [accepted, validated, hhead]
        rfl
        all_goals simp
      split
      · rfl
      split
      · rfl
      · rw [accepted, hhead]
        rfl
    · have hother : ¬ (a.assignmentId == id) = true := fun h => hid (beq_iff_eq.mp h)
      have hpast : ∀ f, updateFirst (fun a => a.assignmentId == id) f (a :: l) =
          a :: updateFirst (fun a => a.assignmentId == id) f l := fun f => if_neg hother
      have hrest : (a :: l).find? (fun a => a.assignmentId == id) =
          l.find? (fun a => a.assignmentId == id) := List.find?_cons_of_neg hother
      rw [if_pos hid, ih, hrest]
      cases l.find? (fun a => a.assignmentId == id) with
      | none => rfl
      | some b =>
        simp only [Option.map_some, Option.getD_some]
        cases leaseCheck t m c r v now b with
        | noActiveJob => rfl
        | refused errorMessage => rfl
        | lapsed => simp only [accepted, validated, hpast, Verdict.past]
        | passed x => simp only [accepted, hpast, Verdict.past]

theorem submitTasks_eq (tasks : List PersistedWorkerTaskRecord)
    (workers : List PersistedWorkerRecord) : submitTasks now id tasks workers =
      (tasks.map (fun task => if task.assignmentId == id then submitTask now task else task),
        (tasks.filter (fun task => task.assignmentId == id)).foldl (fun workers task =>
          updateFirst (fun w => w.workerId == task.workerId) (releaseWorker now task.taskId) workers)
            workers) := by
  induction tasks generalizing workers with
  | nil => rfl
  | cons task tasks ih =>
    rw [submitTasks, List.map_cons]
    by_cases hid : task.assignmentId = id
    · have hof : (task.assignmentId == id) = true := beq_iff_eq.mpr hid
      have hfilter : (task :: tasks).filter (fun task => task.assignmentId == id) =
          task :: tasks.filter (fun task => task.assignmentId == id) := List.filter_cons_of_pos hof
      rw [if_pos hid, ih, if_pos hof, hfilter]
      rfl
    · have hnot : ¬ (task.assignmentId == id) = true := fun h => hid (beq_iff_eq.mp h)
      have hfilter : (task :: tasks).filter (fun task => task.assignmentId == id) =
          tasks.filter (fun task => task.assignmentId == id) := List.filter_cons_of_neg hnot
      rw [if_neg hid, ih, if_neg hnot, hfilter]

theorem check_eq {s : StateStore} {job : PersistedTrainingJobRecord} {jobId : String}
    (hjob : getActiveTrainingJob s t m = some job) (hnamed : ¬ (jobId = "" ∨ id = ""))
    (hid : ¬ jobId ≠ job.jobId) : checkTrainingAssignmentSubmission s t m c jobId id r v now =
      ((s.assignments.find? (fun a => a.assignmentId == id)).map
        (leaseCheck (normalizeTenant t) (normalizeModel m) c r v now)).getD
          (.refused "assignment not found") := by
  unfold checkTrainingAssignmentSubmission
  rw [hjob]
  dsimp only
  rw [if_neg hnamed, if_neg hid]
  cases s.assignments.find? (fun a => a.assignmentId == id) with
  | none => rfl
  | some a => rfl

theorem validate_asWritten (s : StateStore) (jobId : String) (now : ℕ) :
    validateAsWritten s t m c jobId id r v now =
      validateTrainingAssignmentSubmission s t m c jobId id r v now := by
  unfold validateAsWritten validateTrainingAssignmentSubmission
  dsimp only
  generalize expireAssignmentsLocked s (currentTimestamp now) = s
  cases hjob : getActiveTrainingJob s t m with
  | none => rw [checkTrainingAssignmentSubmission, hjob]
  | some job =>
    dsimp only
    by_cases hnamed : jobId = "" ∨ id = ""
    · rw [if_pos hnamed, checkTrainingAssignmentSubmission, hjob]
      dsimp only
      rw [if_pos hnamed]
    by_cases hid : jobId ≠ job.jobId
    · rw [if_neg hnamed, if_pos hid, checkTrainingAssignmentSubmission, hjob]
      dsimp only
      rw [if_neg hnamed, if_pos hid]
    rw [if_neg hnamed, if_neg hid, check_eq t m c id r v _ hjob hnamed hid, validateLoop_eq]
    cases s.assignments.find? (fun a => a.assignmentId == id) with
    | none => rfl
    | some a =>
      simp only [Option.map_some, Option.getD_some]
      cases leaseCheck (normalizeTenant t) (normalizeModel m) c r v (currentTimestamp now) a with
      | noActiveJob => rfl
      | refused errorMessage => rfl
      | lapsed => rfl
      | passed x => rfl

theorem accept_asWritten (s : StateStore) (jobId : String) (now : ℕ) :
    acceptAsWritten s t m c jobId id r v now =
      acceptTrainingAssignmentSubmission s t m c jobId id r v now := by
  unfold acceptAsWritten acceptTrainingAssignmentSubmission
  dsimp only
  generalize expireAssignmentsLocked s (currentTimestamp now) = s
  cases hjob : getActiveTrainingJob s t m with
  | none => rw [checkTrainingAssignmentSubmission, hjob]
  | some job =>
    dsimp only
    by_cases hnamed : jobId = "" ∨ id = ""
    · rw [if_pos hnamed, checkTrainingAssignmentSubmission, hjob]
      dsimp only
      rw [if_pos hnamed]
    by_cases hid : jobId ≠ job.jobId
    · rw [if_neg hnamed, if_pos hid, checkTrainingAssignmentSubmission, hjob]
      dsimp only
      rw [if_neg hnamed, if_pos hid]
    rw [if_neg hnamed, if_neg hid, check_eq t m c id r v _ hjob hnamed hid, acceptLoop_eq]
    cases s.assignments.find? (fun a => a.assignmentId == id) with
    | none => rfl
    | some a =>
      simp only [Option.map_some, Option.getD_some]
      cases leaseCheck (normalizeTenant t) (normalizeModel m) c r v (currentTimestamp now) a with
      | noActiveJob => rfl
      | refused errorMessage => rfl
      | lapsed => rfl
      | passed x =>
        simp only [accepted]
        rw [submitTasks_eq]
        rfl

/-- Leases which ran out are expired, and their events are logged. -/
structure OnlySwept (s s' : StateStore) (now : String) : Prop where
  leases : s'.assignments = s.assignments.map (lapse now)
  log : s'.auditEvents = if expiryEvents s now = [] then s.auditEvents
    else (s.auditEvents ++ expiryEvents s now).rtake s.auditRetention
  rest : s' = { s with assignments := s'.assignments, auditEvents := s'.auditEvents }

theorem expire_onlySwept (s : StateStore) (now : String) :
    OnlySwept s (expireAssignmentsLocked s now) now := by
  unfold expireAssignmentsLocked
  dsimp only
  have hevents : (s.assignments.filter (hasLapsed now)).isEmpty = true ↔ expiryEvents s now = [] := by
    rw [List.isEmpty_iff, expiryEvents, List.map_eq_nil_iff]
  split
  · rename_i hnone
    refine ⟨rfl, ?_, rfl⟩
    rw [if_pos (hevents.mp hnone)]
    show s.auditEvents ++ expiryEvents s now = s.auditEvents
    rw [hevents.mp hnone, List.append_nil]
  · rename_i hsome
    rw [hevents] at hsome
    rw [trim_rtake]
    exact ⟨rfl, (if_neg hsome).symm, rfl⟩

/-- A worker with submitted tasks goes idle, and forgets its active task if it is one of them. -/
def released (now : String) (own : List PersistedWorkerTaskRecord) (w : PersistedWorkerRecord) :
    PersistedWorkerRecord :=
  if own = [] then w
  else { w with
    status := .idle
    activeTaskId := if w.activeTaskId ∈ own.map (·.taskId) then "" else w.activeTaskId
    lastHeartbeatAt := now }

/-- A worker is released from its tasks unless its identifier stands earlier. -/
def releasedAt (now : String) (tasks : List PersistedWorkerTaskRecord) (earlier : List String)
    (w : PersistedWorkerRecord) : PersistedWorkerRecord :=
  if w.workerId ∈ earlier then w
  else released now (tasks.filter (fun task => task.workerId == w.workerId)) w

def releasedFirst (now : String) (tasks : List PersistedWorkerTaskRecord)
    (workers : List PersistedWorkerRecord) : List PersistedWorkerRecord :=
  workers.mapIdx (fun i w => releasedAt now tasks ((workers.take i).map (·.workerId)) w)

def submittedEvent (t m c id now : String) : PersistedAuditEvent :=
  ⟨now, "assignment_submitted", normalizeTenant t, normalizeModel m, c, "Accepted assignment " ++ id⟩

/-- One assignment is submitted, the first with this identifier, with all its tasks,
and the workers of these tasks are released. -/
structure AcceptsOne (s s' : StateStore) (t m c id now : String) : Prop where
  lease : ∃ before a after, s.assignments = before ++ a :: after ∧
    (∀ x ∈ before, x.assignmentId ≠ id) ∧ a.assignmentId = id ∧ a.status = .leased ∧
    s'.assignments = before ++ submitLease now a :: after
  tasks : s'.workerTasks =
    s.workerTasks.map (fun task => if task.assignmentId = id then submitTask now task else task)
  workers : s'.workers =
    releasedFirst now (s.workerTasks.filter (fun task => task.assignmentId == id)) s.workers
  log : s'.auditEvents =
    (s.auditEvents ++ [submittedEvent t m c id now]).rtake s.auditRetention
  rest : s' = { s with
    assignments := s'.assignments
    workerTasks := s'.workerTasks
    workers := s'.workers
    auditEvents := s'.auditEvents }

theorem released_cons (task : PersistedWorkerTaskRecord) (own : List PersistedWorkerTaskRecord)
    (w : PersistedWorkerRecord) :
    released now own (releaseWorker now task.taskId w) = released now (task :: own) w := by
  have hcons : released now (task :: own) w = { w with
      status := .idle
      activeTaskId := if w.activeTaskId ∈ (task :: own).map (·.taskId) then "" else w.activeTaskId
      lastHeartbeatAt := now } := if_neg (List.cons_ne_nil task own)
  rw [hcons, List.map_cons, released]
  by_cases hnil : own = []
  · subst hnil
    simp only [if_true, List.map_nil, List.mem_singleton]
    rfl
  · rw [if_neg hnil]
    unfold releaseWorker
    by_cases hactive : w.activeTaskId = task.taskId
    · simp only [hactive, if_true, ite_self, List.mem_cons, true_or]
    · simp only [hactive, if_false, List.mem_cons, false_or]

theorem releasedAt_cons (task : PersistedWorkerTaskRecord) (tasks : List PersistedWorkerTaskRecord)
    (earlier : List String) (w : PersistedWorkerRecord) :
    releasedAt now tasks earlier (if w.workerId = task.workerId ∧ w.workerId ∉ earlier then
        releaseWorker now task.taskId w else w) = releasedAt now (task :: tasks) earlier w := by
  by_cases hearlier : w.workerId ∈ earlier
  · rw [if_neg (fun h => h.2 hearlier), releasedAt, releasedAt, if_pos hearlier, if_pos hearlier]
  by_cases hworker : w.workerId = task.workerId
  · have hfilter : (task :: tasks).filter (fun task => task.workerId == w.workerId) =
        task :: tasks.filter (fun task => task.workerId == w.workerId) :=
      List.filter_cons_of_pos (beq_iff_eq.mpr hworker.symm)
    have hplace : releasedAt now (task :: tasks) earlier w = _ := if_neg hearlier
    rw [if_pos ⟨hworker, hearlier⟩, hplace, hfilter, ← released_cons]
    exact if_neg hearlier
  · have hfilter : (task :: tasks).filter (fun task => task.workerId == w.workerId) =
        tasks.filter (fun task => task.workerId == w.workerId) :=
      List.filter_cons_of_neg (fun h => hworker (beq_iff_eq.mp h).symm)
    rw [if_neg (fun h => hworker h.1), releasedAt, releasedAt, hfilter]

theorem released_loop (tasks : List PersistedWorkerTaskRecord)
    (workers : List PersistedWorkerRecord) :
    tasks.foldl (fun workers task =>
      updateFirst (fun w => w.workerId == task.workerId) (releaseWorker now task.taskId) workers)
      workers = releasedFirst now tasks workers := by
  induction tasks generalizing workers with
  | nil =>
    refine (List.mapIdx_eq_iff.mpr fun i => ?_).symm
    rw [List.foldl_nil]
    cases workers[i]? with
    | none => rfl
    | some w => exact congrArg some (ite_self w).symm
  | cons task tasks ih =>
    have hids : ∀ i, ((updateFirst (fun w : PersistedWorkerRecord => w.workerId == task.workerId)
        (releaseWorker now task.taskId) workers).take i).map (·.workerId) =
          (workers.take i).map (·.workerId) := by
      intro i
      rw [List.map_take, List.map_take,
        map_updateFirst (f := releaseWorker now task.taskId) (fun w _ => rfl)]
    rw [List.foldl_cons, ih, releasedFirst]
    simp only [hids]
    rw [updateFirst_eq_mapIdx (fun w : PersistedWorkerRecord => w.workerId), List.mapIdx_mapIdx,
      releasedFirst]
    congr 1
    funext i w
    exact releasedAt_cons now task tasks _ w

theorem passed_acceptsOne {s : StateStore} {t m c jobId id : String} {r v : ℤ} {now : ℕ}
    {a : PersistedAssignmentLease} (h : checkTrainingAssignmentSubmission
      (expireAssignmentsLocked s (currentTimestamp now)) t m c jobId id r v (currentTimestamp now) =
        .passed a) : AcceptsOne (expireAssignmentsLocked s (currentTimestamp now))
      (acceptTrainingAssignmentSubmission s t m c jobId id r v now).store t m c id
      (currentTimestamp now) := by
  obtain ⟨-, -, -, -, hnamed, -, hleased⟩ := check_passed h
  obtain ⟨hid, before, after, hsplit, hbefore⟩ := List.find?_eq_some_iff_append.mp hnamed
  have hassignment : a.assignmentId = id := beq_iff_eq.mp hid
  have hothers : ∀ x ∈ before, ¬ (x.assignmentId == id) = true := by
    intro x hx
    simpa using hbefore x hx
  unfold acceptTrainingAssignmentSubmission
  dsimp only
  rw [h]
  dsimp only
  rw [push_rtake, hassignment]
  generalize expireAssignmentsLocked s (currentTimestamp now) = s at *
  refine ⟨⟨before, a, after, hsplit, ?_, hassignment, hleased, ?_⟩, ?_, ?_, rfl, rfl⟩
  · intro x hx hsame
    exact hothers x hx (beq_iff_eq.mpr hsame)
  · show updateFirst _ _ s.assignments = _
    rw [hsplit]
    exact updateFirst_append _ hothers hid
  · apply List.map_congr_left
    intro task _
    simp only [beq_iff_eq]
  · exact released_loop _ _ s.workers

/-- The two give the same answer. Apart from the sweep that both begin with, validation
changes nothing and acceptance one assignment. What validation lets pass is accepted
later, as long as the lease lasts. -/
structure Predicts (s : StateStore) (t m c jobId id : String) (r v : ℤ) (now : ℕ) : Prop where
  agree : (validateAsWritten s t m c jobId id r v now).value =
    (acceptAsWritten s t m c jobId id r v now).value
  validates : OnlySwept s (validateAsWritten s t m c jobId id r v now).store (currentTimestamp now)
  accepts : (acceptAsWritten s t m c jobId id r v now).value = .ok () →
    (getActiveTrainingJob s t m).isSome = true →
    ∃ swept, OnlySwept s swept (currentTimestamp now) ∧
      AcceptsOne swept (acceptAsWritten s t m c jobId id r v now).store t m c id
        (currentTimestamp now)
  later : (validateAsWritten s t m c jobId id r v now).value = .ok () → ∀ now', now ≤ now' →
    (∀ a, leaseNamed (validateAsWritten s t m c jobId id r v now).store id = some a →
      hasLapsed (currentTimestamp now') a = false) →
    (acceptAsWritten (validateAsWritten s t m c jobId id r v now).store t m c jobId id r v
      now').value = .ok ()

theorem validate_store (s : StateStore) (t m c jobId id : String) (r v : ℤ) (now : ℕ) :
    (validateTrainingAssignmentSubmission s t m c jobId id r v now).store =
      expireAssignmentsLocked s (currentTimestamp now) := by
  unfold validateTrainingAssignmentSubmission
  dsimp only
  split
  · rfl
  · rfl
  · rename_i hlapsed
    exact absurd hlapsed (check_after_sweep s t m c jobId id r v _)
  · rfl

theorem check_again {s : StateStore} {t m c jobId id : String} {r v : ℤ} {now now' : String}
    {a : PersistedAssignmentLease}
    (h : checkTrainingAssignmentSubmission s t m c jobId id r v now = .passed a)
    (hlasts : hasLapsed now' a = false) :
    checkTrainingAssignmentSubmission (expireAssignmentsLocked s now') t m c jobId id r v now' =
      .passed a := by
  obtain ⟨job, hjob, hid, hne, hnamed, hfits, hleased⟩ := check_passed h
  have hsame : lapse now' a = a := if_neg (Bool.eq_false_iff.mp hlasts)
  have hjob' : getActiveTrainingJob (expireAssignmentsLocked s now') t m = some job :=
    (getActive_expire s now' t m).trans hjob
  have hnamed' : leaseNamed (expireAssignmentsLocked s now') id = some a := by
    rw [leaseNamed_expire, hnamed, Option.map_some, hsame]
  apply check_of_fits hjob' hid hne hnamed' hfits hleased
  intro hover
  simp [hasLapsed, hleased, hover.1, hover.2] at hlasts

theorem validate_predicts_accept (s : StateStore) (t m c jobId id : String) (r v : ℤ) (now : ℕ) :
    Predicts s t m c jobId id r v now := by
  have hvalidate := validate_asWritten t m c id r v s jobId now
  have haccept := accept_asWritten t m c id r v
  have hstore := validate_store s t m c jobId id r v now
  constructor
  · rw [hvalidate, haccept]
    unfold validateTrainingAssignmentSubmission acceptTrainingAssignmentSubmission
    dsimp only
    cases checkTrainingAssignmentSubmission (expireAssignmentsLocked s (currentTimestamp now)) t m c
        jobId id r v (currentTimestamp now) with
    | noActiveJob => rfl
    | refused errorMessage => rfl
    | lapsed => rfl
    | passed a => rfl
  · rw [hvalidate, hstore]
    exact expire_onlySwept s _
  · rw [haccept]
    intro hok hactive
    refine ⟨_, expire_onlySwept s (currentTimestamp now), ?_⟩
    cases hcheck : checkTrainingAssignmentSubmission
        (expireAssignmentsLocked s (currentTimestamp now)) t m c jobId id r v
        (currentTimestamp now) with
    | noActiveJob =>
      have hnone := check_noActiveJob hcheck
      rw [getActive_expire] at hnone
      rw [hnone] at hactive
      cases hactive
    | refused errorMessage =>
      rw [acceptTrainingAssignmentSubmission, hcheck] at hok
      cases hok
    | lapsed => exact absurd hcheck (check_after_sweep s t m c jobId id r v _)
    | passed a => exact passed_acceptsOne hcheck
  · intro hok now' _ hlasts
    rw [hvalidate] at hok
    rw [hvalidate, hstore] at hlasts ⊢
    rw [haccept, acceptTrainingAssignmentSubmission]
    dsimp only
    cases hcheck : checkTrainingAssignmentSubmission
        (expireAssignmentsLocked s (currentTimestamp now)) t m c jobId id r v
        (currentTimestamp now) with
    | noActiveJob =>
      have hnone : getActiveTrainingJob (expireAssignmentsLocked (expireAssignmentsLocked s
          (currentTimestamp now)) (currentTimestamp now')) t m = none := by
        rw [getActive_expire]
        exact check_noActiveJob hcheck
      rw [checkTrainingAssignmentSubmission, hnone]
    | refused errorMessage =>
      rw [validateTrainingAssignmentSubmission, hcheck] at hok
      cases hok
    | lapsed => exact absurd hcheck (check_after_sweep s t m c jobId id r v _)
    | passed a =>
      obtain ⟨-, -, -, -, hnamed, -, -⟩ := check_passed hcheck
      rw [check_again hcheck (hlasts a hnamed)]

/-- Two clients lease a round, the second when the lease of the first is half over. -/
def halfOver : List StoreAction := [
  .perform (.createTrainingJob (LiveLeases.sharedJob "t" "m")) 0,
  .perform (.leaseTrainingAssignment "t" "m" "a" 0 1 60) 0,
  .perform (.leaseTrainingAssignment "t" "m" "b" 0 1 60) 20000]

/-- The records differ in one place at most. -/
def ChangesOne (l l' : List PersistedAssignmentLease) : Prop :=
  ∃ before a a' after, l = before ++ a :: after ∧ l' = before ++ a' :: after

theorem ChangesOne.at {l l' : List PersistedAssignmentLease} (h : ChangesOne l l') {i j : ℕ}
    (hi : l[i]? ≠ l'[i]?) (hj : l[j]? ≠ l'[j]?) : i = j := by
  obtain ⟨before, a, a', after, rfl, rfl⟩ := h
  have hplace : ∀ {k : ℕ}, (before ++ a :: after)[k]? ≠ (before ++ a' :: after)[k]? →
      k = before.length := by
    intro k hk
    rcases lt_trichotomy k before.length with hlt | heq | hgt
    · rw [List.getElem?_append_left hlt, List.getElem?_append_left hlt] at hk
      exact absurd rfl hk
    · exact heq
    · obtain ⟨n, rfl⟩ : ∃ n, k = before.length + (n + 1) := ⟨k - before.length - 1, by omega⟩
      rw [List.getElem?_append_right (by omega), List.getElem?_append_right (by omega),
        Nat.add_sub_cancel_left, List.getElem?_cons_succ, List.getElem?_cons_succ] at hk
      exact absurd rfl hk
  rw [hplace hi, hplace hj]

def submitsSecond (s : StateStore) : Outcome (Except String Unit) :=
  acceptAsWritten s "t" "m" "b" "t::m::d::1970-01-01T00:00:00.000Z"
    "t::m::d::1970-01-01T00:00:00.000Z::round:1::client:b::1970-01-01T00:00:20.000Z" 1 0 35000

/-- The acceptance of the second lease expires the first one. -/
theorem acceptance_sweeps_others : ∃ p, Reaches StoreRuns.step Free (initial 10) p ∧
    (getActiveTrainingJob p.store "t" "m").isSome = true ∧
    (submitsSecond p.store).value = .ok () ∧
    (submitsSecond p.store).store.assignments.map (·.status) = [.expired, .submitted] ∧
    ¬ ChangesOne p.store.assignments (submitsSecond p.store).store.assignments := by
  have htest : (exec StoreRuns.step halfOver (initial 10)).any (fun p =>
      (getActiveTrainingJob p.store "t" "m").isSome &&
      (decide ((submitsSecond p.store).value = .ok ()) &&
        (decide ((submitsSecond p.store).store.assignments.map (·.status) = [.expired, .submitted]) &&
          (decide (p.store.assignments[0]? ≠ (submitsSecond p.store).store.assignments[0]?) &&
            decide (p.store.assignments[1]? ≠ (submitsSecond p.store).store.assignments[1]?))))) =
      true := by
    decide +kernel
  rw [Option.any_eq_true] at htest
  obtain ⟨p, hp, hfacts⟩ := htest
  simp only [Bool.and_eq_true, decide_eq_true_eq] at hfacts
  obtain ⟨hactive, hok, hstatuses, hfirst, hsecond⟩ := hfacts
  refine ⟨p, exec_reaches _ hp, hactive, hok, hstatuses, ?_⟩
  intro hone
  exact absurd (hone.at hfirst hsecond) (by decide)

end PqFl.PredictedAcceptance
