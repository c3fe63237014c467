import PqFl.WorkerSteps

/-!
# Tasks and the assignments they are for

A worker task is under way while it is leased or running. Acceptance and the
advance of a round end tasks together with their assignment; the expiry of a
lease does not, and neither a late lease of the task nor a report asks whether
the assignment has ended.
-/

set_option autoImplicit false

namespace PqFl.OrphanTasks
open PqFl.Identifiers PqFl.Timestamps PqFl.StoreRecords PqFl.StateStore PqFl.ListUpdate
open PqFl.StoreRuns PqFl.Runs PqFl.LeaseLifecycle PqFl.WorkerSteps

def isUnderWay (status : TaskStatus) : Bool := status == .leased || status == .running

def IsOpen (a : PersistedAssignmentLease) : Prop := a.status = .leased ∨ a.status = .submitted

instance (a : PersistedAssignmentLease) : Decidable (IsOpen a) :=
  inferInstanceAs (Decidable (_ ∨ _))

/-- Every task under way has an open assignment. -/
def NoOrphanTasks (s : StateStore) : Prop :=
  ∀ task ∈ s.workerTasks, isUnderWay task.status = true →
    ∃ a ∈ s.assignments, a.assignmentId = task.assignmentId ∧ IsOpen a

/-- The assignment of a task, which has the job and the round of the task too. -/
def IsFor (task : PersistedWorkerTaskRecord) (a : PersistedAssignmentLease) : Prop :=
  a.assignmentId = task.assignmentId ∧ a.jobId = task.jobId ∧ a.roundIndex = task.roundIndex

instance (task : PersistedWorkerTaskRecord) (a : PersistedAssignmentLease) :
    Decidable (IsFor task a) := inferInstanceAs (Decidable (_ ∧ _))

/-- The form of the invariant which the operations preserve. -/
def Attended (assignments : List PersistedAssignmentLease)
    (tasks : List PersistedWorkerTaskRecord) : Prop :=
  ∀ task ∈ tasks, isUnderWay task.status = true → ∃ a ∈ assignments, IsFor task a ∧ IsOpen a

theorem Attended.noOrphanTasks {s : StateStore} (h : Attended s.assignments s.workerTasks) :
    NoOrphanTasks s := by
  intro task htask hunderWay
  obtain ⟨a, ha, hfor, hopen⟩ := h task htask hunderWay
  exact ⟨a, ha, hfor.1, hopen⟩

/-- No lease that runs out has a task under way. -/
def NoneCutShort (s : StateStore) (now : ℕ) : Prop :=
  ∀ a ∈ s.assignments, hasLapsed (currentTimestamp now) a = true →
    ∀ task ∈ s.workerTasks, task.assignmentId = a.assignmentId → isUnderWay task.status = false

/-- A task is leased while its assignment is open, and reported to be leased or
running only then. -/
def StillOpen (s : StateStore) : Operation → Prop
  | .leaseWorkerTask worker assignment job _ =>
    s.workerTasks.find? (isTaskFor assignment.assignmentId worker.workerId) = none →
      ∃ a ∈ s.assignments, a.assignmentId = assignment.assignmentId ∧ a.jobId = job.jobId ∧
        a.roundIndex = assignment.roundIndex ∧ IsOpen a
  | .updateWorkerTaskStatus _ taskId (some status) _ _ => isUnderWay status = true →
      ∀ task ∈ s.workerTasks, task.taskId = taskId →
        isUnderWay task.status = true ∨ ∃ a ∈ s.assignments, IsFor task a ∧ IsOpen a
  | _ => True

def Attentive (p : StoreProcess) : StoreAction → Prop
  | .perform op now => (sweeps op = true → NoneCutShort p.store now) ∧ StillOpen p.store op
  | .load now => NoneCutShort p.disk now

theorem Attended.swept {s : StateStore} {now : ℕ} (h : Attended s.assignments s.workerTasks)
    (hnow : NoneCutShort s now) (granted : List PersistedAssignmentLease) :
    Attended (s.assignments.map (lapse (currentTimestamp now)) ++ granted) s.workerTasks := by
  intro task htask hunderWay
  obtain ⟨a, ha, hfor, hopen⟩ := h task htask hunderWay
  refine ⟨a, List.mem_append_left _ (List.mem_map.mpr ⟨a, ha, ?_⟩), hfor, hopen⟩
  unfold lapse
  by_cases hlapsed : hasLapsed (currentTimestamp now) a = true
  · have hended := hnow a ha hlapsed task htask hfor.1.symm
    rw [hunderWay] at hended
    cases hended
  · rw [if_neg hlapsed]

theorem Attended.assignments {l l' : List PersistedAssignmentLease}
    {tasks : List PersistedWorkerTaskRecord} (h : Attended l tasks)
    (hl : List.Forall₂ (fun a a' => a'.assignmentId = a.assignmentId ∧ a'.jobId = a.jobId ∧
      a'.roundIndex = a.roundIndex ∧ (IsOpen a → IsOpen a')) l l') : Attended l' tasks := by
  intro task htask hunderWay
  obtain ⟨a, ha, ⟨hid, hjob, hround⟩, hopen⟩ := h task htask hunderWay
  obtain ⟨a', ha', hid', hjob', hround', hopen'⟩ := forall₂_of_mem_left hl ha
  exact ⟨a', ha', ⟨hid'.trans hid, hjob'.trans hjob, hround'.trans hround⟩, hopen' hopen⟩

theorem Attended.tasks {l : List PersistedAssignmentLease}
    {tasks tasks' : List PersistedWorkerTaskRecord} (h : Attended l tasks)
    (htasks : ∀ task' ∈ tasks', isUnderWay task'.status = true → ∃ task ∈ tasks,
      isUnderWay task.status = true ∧ task'.assignmentId = task.assignmentId ∧
        task'.jobId = task.jobId ∧ task'.roundIndex = task.roundIndex) : Attended l tasks' := by
  intro task' htask' hunderWay'
  obtain ⟨task, htask, hunderWay, hid, hjob, hround⟩ := htasks task' htask' hunderWay'
  obtain ⟨a, ha, hfor, hopen⟩ := h task htask hunderWay
  refine ⟨a, ha, ?_, hopen⟩
  unfold IsFor
  rw [hid, hjob, hround]
  exact hfor

theorem attended_accepted {s : StateStore} {now : ℕ} {id : String}
    (h : Attended s.assignments s.workerTasks) (hnow : NoneCutShort s now) :
    Attended (updateFirst (fun a => a.assignmentId == id) (submitAssignment (currentTimestamp now))
        (s.assignments.map (lapse (currentTimestamp now))))
      (s.workerTasks.map (fun task =>
        if task.assignmentId = id then submitTask (currentTimestamp now) task else task)) := by
  have hswept := h.swept hnow []
  rw [List.append_nil] at hswept
  apply Attended.assignments (l := s.assignments.map (lapse (currentTimestamp now)))
  · apply hswept.tasks
    intro task' htask' hunderWay
    obtain ⟨task, htask, rfl⟩ := List.mem_map.mp htask'
    by_cases hid : task.assignmentId = id
    · rw [if_pos hid] at hunderWay
      cases hunderWay
    · rw [if_neg hid] at hunderWay ⊢
      exact ⟨task, htask, hunderWay, rfl, rfl, rfl⟩
  · apply (updateFirst_touched _ _ _).imp
    rintro a a' (rfl | ⟨-, rfl⟩)
    · exact ⟨rfl, rfl, rfl, fun hopen => hopen⟩
    · exact ⟨rfl, rfl, rfl, fun _ => .inr rfl⟩

theorem attended_advanced {s : StateStore} {jobId now : String} {round : ℤ}
    (h : Attended s.assignments s.workerTasks) :
    Attended (s.assignments.map (closeAssignment jobId round now))
      (s.workerTasks.map (fun task =>
        if isTaskOf jobId round task then closeTask now task else task)) := by
  intro task' htask' hunderWay
  obtain ⟨task, htask, rfl⟩ := List.mem_map.mp htask'
  by_cases hof : isTaskOf jobId round task = true
  · rw [if_pos hof] at hunderWay
    unfold closeTask at hunderWay
    cases hstatus : task.status with
    | leased => simp [hstatus, isUnderWay] at hunderWay
    | running => simp [hstatus, isUnderWay] at hunderWay
    | completed => simp [hstatus, isUnderWay] at hunderWay
    | failed => simp [hstatus, isUnderWay] at hunderWay
    | submitted => simp [hstatus, isUnderWay] at hunderWay
    | aggregated => simp [hstatus, isUnderWay] at hunderWay
    | missed => simp [hstatus, isUnderWay] at hunderWay
  · rw [if_neg hof] at hunderWay ⊢
    obtain ⟨a, ha, hfor, hopen⟩ := h task htask hunderWay
    refine ⟨a, List.mem_map.mpr ⟨a, ha, ?_⟩, hfor, hopen⟩
    unfold closeAssignment
    rw [if_neg]
    rintro ⟨hjob, hround⟩
    apply hof
    simp [isTaskOf, ← hfor.2.1, ← hfor.2.2, hjob, hround]

theorem perform_attended {s : StateStore} {now : ℕ} {op : Operation}
    (h : Attended s.assignments s.workerTasks) (hnow : sweeps op = true → NoneCutShort s now)
    (hop : StillOpen s op) :
    Attended (perform s now op).store.assignments (perform s now op).store.workerTasks := by
  cases perform_taskStep s now op with
  | kept hassignments htasks hworkers =>
    rw [hassignments, htasks]
    exact h
  | swept hsweeps granted hgranted hassignments htasks hworkers =>
    rw [hassignments, htasks]
    exact h.swept (hnow hsweeps) granted
  | accepted hcheck hfound hleased hassignments htasks hworkers =>
    rw [hassignments, htasks]
    exact attended_accepted h (hnow rfl)
  | advanced hjob hassignments htasks hworkers =>
    rw [hassignments, htasks]
    exact attended_advanced h
  | added hnew hassignments htasks hworkers =>
    rw [hassignments, htasks]
    exact h
  | registeredAgain hknown hassignments htasks hworkers =>
    rw [hassignments, htasks]
    exact h
  | leasedAgain hknown hassignments htasks hworkers =>
    rw [hassignments, htasks]
    apply h.tasks
    intro task' htask' hunderWay
    obtain ⟨task, htask, rfl | ⟨-, rfl⟩⟩ := forall₂_of_mem (updateFirst_touched _ _ _) htask'
    · exact ⟨_, htask, hunderWay, rfl, rfl, rfl⟩
    · exact ⟨_, List.mem_of_find?_eq_some hknown, hunderWay, rfl, rfl, rfl⟩
  | leased hnew hassignments htasks hworkers =>
    rw [hassignments, htasks]
    apply forall_append_one h
    intro _
    obtain ⟨a, ha, hid, hjob, hround, hopen⟩ := hop hnew
    exact ⟨a, ha, ⟨hid, hjob, hround⟩, hopen⟩
  | reported hfound hown hassignments htasks hworkers =>
    rw [hassignments, htasks]
    rename_i taskId detail status progressPercent task
    have hmem := List.mem_of_find?_eq_some hfound
    apply forall_updateFirst h
    intro _ _ hunderWay
    have htask : isUnderWay task.status = true ∨ ∃ a ∈ s.assignments, IsFor task a ∧ IsOpen a := by
      cases status with
      | none => exact .inl hunderWay
      | some status => exact hop hunderWay task hmem (by simpa using List.find?_some hfound)
    rcases htask with hbefore | hopen
    · exact h task hmem hbefore
    · exact hopen
  | beat hassignments htasks hworkers =>
    rw [hassignments, htasks]
    exact h

theorem load_attended {image : StateStore} {now : ℕ} (htidy : Tidy image)
    (h : Attended image.assignments image.workerTasks) (hnow : NoneCutShort image now) :
    Attended (load image now).store.assignments (load image now).store.workerTasks := by
  rw [(load_fields htidy now).2.2.2.2.2.2, ← List.append_nil (List.map _ _)]
  apply (h.swept hnow []).tasks
  intro task' htask' hunderWay
  have hloaded : records (load image now).store = records (normalizedRecords image) := by
    rw [load, records_trim, records_expire]
  rw [(records_eq hloaded).2.2.2.2.2.1] at htask'
  obtain ⟨task, htask, rfl⟩ := List.mem_map.mp htask'
  exact ⟨task, htask, hunderWay, rfl, rfl, rfl⟩

structure AllAttended (p : StoreProcess) : Prop where
  store : Attended p.store.assignments p.store.workerTasks
  disk : Attended p.disk.assignments p.disk.workerTasks

theorem step_attended {p p' : StoreProcess} {a : StoreAction} (hb : Backed p) (h : AllAttended p)
    (ha : Attentive p a) (hs : StoreRuns.step p a = some p') : AllAttended p' := by
  cases a with
  | perform op now =>
    obtain rfl := Option.some.inj hs
    have hstore := perform_attended h.store ha.1 ha.2
    exact ⟨hstore, step_onDisk (I := fun s => Attended s.assignments s.workerTasks) hs hstore h.disk⟩
  | load now =>
    obtain rfl := Option.some.inj hs
    have hload := load_attended hb.disk h.disk ha
    exact ⟨hload, hload⟩

/-- While no lease with a task under way runs out, and tasks are leased and
reported only while their assignment is open, no task is an orphan. -/
theorem no_orphan_tasks (auditRetention : ℕ) (p : StoreProcess)
    (h : Reaches StoreRuns.step Attentive (StoreRuns.initial auditRetention) p) :
    NoOrphanTasks p.store := by
  have hall : Backed p ∧ AllAttended p := by
    apply h.invariant (I := fun p => Backed p ∧ AllAttended p)
    · refine ⟨initial_backed auditRetention, ?_, ?_⟩
      · intro task htask
        cases htask
      · intro task htask
        cases htask
    · intro p a p' hp ha hs
      exact ⟨step_backed hp.1 hs, step_attended hp.1 hp.2 ha hs⟩
  exact hall.2.store.noOrphanTasks

def trainingWorker : PersistedWorkerRecord :=
  ⟨"w", "c", "t", "m", "h", "l", 1, [], .idle, "", "", ""⟩

def plannedJob : PersistedTrainingJobRecord :=
  ⟨"j", "t", "m", "d", 2, 1, 1, 30, .planned, 1, 0, 0, "", "", ""⟩

def trainingLease : PersistedAssignmentLease :=
  newLease plannedJob "t" "m" "c" 0 60 2

def trainingTask : String := trainingLease.assignmentId ++ "::worker:w"

def startedTask : List StoreAction := [
  .perform (.upsertWorker trainingWorker) 0,
  .perform (.createTrainingJob plannedJob) 1,
  .perform (.leaseTrainingAssignment "t" "m" "c" 0 1 60) 2,
  .perform (.leaseWorkerTask trainingWorker trainingLease plannedJob {}) 3,
  .perform (.updateWorkerTaskStatus "w" trainingTask (some .running) "" 10) 4]

def attends (p : StoreProcess) : StoreAction → Bool
  | .perform (.leaseWorkerTask _ assignment job _) _ =>
    p.store.assignments.any (fun a => a.assignmentId == assignment.assignmentId &&
      a.jobId == job.jobId && a.roundIndex == assignment.roundIndex && a.status == .leased)
  | .perform (.updateWorkerTaskStatus _ _ _ _ _) _ =>
    p.store.workerTasks.all (fun task => isUnderWay task.status)
  | .perform (.leaseTrainingAssignment _ _ _ _ _ _) _ => p.store.assignments.isEmpty
  | .perform (.upsertWorker _) _ => true
  | .perform (.createTrainingJob _) _ => true
  | _ => false

theorem attentive_of_attends (p : StoreProcess) (a : StoreAction) (h : attends p a = true) :
    Attentive p a := by
  cases a with
  | load now => cases h
  | perform op now =>
    cases op with
    | leaseWorkerTask worker assignment job dataset =>
      refine ⟨fun hsweeps => (by cases hsweeps), fun _ => ?_⟩
      obtain ⟨a, ha, hmatch⟩ := List.any_eq_true.mp h
      simp only [Bool.and_eq_true, beq_iff_eq] at hmatch
      exact ⟨a, ha, hmatch.1.1.1, hmatch.1.1.2, hmatch.1.2, .inl hmatch.2⟩
    | updateWorkerTaskStatus workerId taskId status detail progressPercent =>
      refine ⟨fun hsweeps => (by cases hsweeps), ?_⟩
      cases status with
      | none => trivial
      | some status =>
        intro _ task htask _
        exact .inl (List.all_eq_true.mp h task htask)
    | leaseTrainingAssignment t m c version minClients ttl =>
      refine ⟨fun _ a ha => ?_, trivial⟩
      rw [List.isEmpty_iff.mp h] at ha
      cases ha
    | upsertWorker record => exact ⟨fun hsweeps => (by cases hsweeps), trivial⟩
    | createTrainingJob record => exact ⟨fun hsweeps => (by cases hsweeps), trivial⟩
    | _ => cases h

theorem no_orphan_tasks_started : ∃ p,
    Reaches StoreRuns.step Attentive (StoreRuns.initial 10) p ∧
    p.store.workerTasks.map (·.status) = [.running] ∧ NoOrphanTasks p.store := by
  have htest : (execTested StoreRuns.step attends startedTask (StoreRuns.initial 10)).any (fun p =>
      p.store.workerTasks.map (·.status) == [.running]) = true := by
    decide +kernel
  rw [Option.any_eq_true] at htest
  obtain ⟨p, hp, hrunning⟩ := htest
  have hreaches := execTested_reaches attends attentive_of_attends startedTask hp
  exact ⟨p, hreaches, by simpa using hrunning, no_orphan_tasks 10 p hreaches⟩

/-- The lease of that task runs out. -/
theorem expired_lease_orphans : ∃ p,
    Reaches StoreRuns.step Free (StoreRuns.initial 10) p ∧ ¬ NoOrphanTasks p.store := by
  have htest : (exec StoreRuns.step (startedTask ++
      [.perform (.leaseTrainingAssignment "t" "m" "c2" 0 1 60) 60003]) (StoreRuns.initial 10)).any
      (fun p => p.store.workerTasks.any (fun task => isUnderWay task.status &&
        p.store.assignments.all (fun a => a.assignmentId != task.assignmentId ||
          (a.status != .leased && a.status != .submitted)))) = true := by
    decide +kernel
  rw [Option.any_eq_true] at htest
  obtain ⟨p, hp, horphan⟩ := htest
  refine ⟨p, exec_reaches _ hp, ?_⟩
  intro hnone
  obtain ⟨task, htask, hmatch⟩ := List.any_eq_true.mp horphan
  obtain ⟨hunderWay, hall⟩ := Bool.and_eq_true_iff.mp hmatch
  obtain ⟨a, ha, hid, hopen⟩ := hnone task htask hunderWay
  have hclosed := List.all_eq_true.mp hall a ha
  rcases hopen with hstatus | hstatus
  · simp [hid, hstatus] at hclosed
  · simp [hid, hstatus] at hclosed

end PqFl.OrphanTasks
