import PqFl.Configuration
import PqFl.ServerStore
import PqFl.WorkerSteps

/-!
# The life of a worker task

The status of a task is written by four operations, and one of them takes it
from the worker. A task is followed by its place in the list, since tasks are
only ever added at the end.
-/

set_option autoImplicit false

namespace PqFl.TaskLifecycle
open PqFl.Identifiers PqFl.Timestamps PqFl.StoreRecords PqFl.StateStore PqFl.ListUpdate
open PqFl.Aggregation PqFl.Services PqFl.Process PqFl.StoreRuns PqFl.Runs PqFl.JobLedger
open PqFl.WorkerSteps PqFl.ServerStore PqFl.Configuration PqFl.Floats

variable {F : Type} [FloatArith F] {d : Deployment F}

def hasEnded (status : TaskStatus) : Bool := status == .aggregated || status == .missed

def isCredited (status : TaskStatus) : Bool := status == .submitted || status == .aggregated

/-- Weight acceptance and round advance. -/
def settles : Operation → Bool
  | .acceptTrainingAssignmentSubmission _ _ _ _ _ _ _ => true
  | .advanceTrainingJobRound _ _ _ _ => true
  | _ => false

/-- Ended tasks keep their status, and the other tasks get a credited status
only where that is allowed. -/
structure TasksLawful (allowed : Prop) (l l' : List PersistedWorkerTaskRecord) : Prop where
  ended : ∀ (i : ℕ) task, l[i]? = some task → hasEnded task.status = true →
    ∃ task', l'[i]? = some task' ∧ task'.taskId = task.taskId ∧ task'.status = task.status
  credited : ∀ (i : ℕ) task', l'[i]? = some task' → isCredited task'.status = true →
    allowed ∨ ∃ task, l[i]? = some task ∧ task.status = task'.status

/-- The task which `LeaseWorkerTask` hands out, with the worker marked as leased
on it. -/
def handedOut (s : StateStore) (now : ℕ) : Operation → Option PersistedWorkerTaskRecord
  | .leaseWorkerTask worker assignment job dataset =>
    some (leaseWorkerTask s worker assignment job dataset now).value
  | _ => none

/-- A report may not touch an ended task, nor claim a credit that the task does
not have. -/
def LawfulReport (old new : TaskStatus) : Prop :=
  (hasEnded old = true → new = old) ∧ (isCredited new = true → new = old)

instance (old new : TaskStatus) : Decidable (LawfulReport old new) :=
  inferInstanceAs (Decidable (_ ∧ _))

def Lawful (s : StateStore) (now : ℕ) : Operation → Prop
  | .updateWorkerTaskStatus workerId taskId status _ _ => ∀ task,
      s.workerTasks.find? (fun task => task.taskId == taskId) = some task →
        task.workerId = workerId → LawfulReport task.status (status.getD task.status)
  | .leaseWorkerTask worker assignment _ _ => ∀ task,
      s.workerTasks.find? (isTaskFor assignment.assignmentId worker.workerId) = some task →
        task.status ≠ .failed
  | .acceptTrainingAssignmentSubmission t m c jobId id r v => ∀ x,
      checkTrainingAssignmentSubmission (expireAssignmentsLocked s (currentTimestamp now)) t m c
        jobId id r v (currentTimestamp now) = .passed x →
      ∀ task ∈ s.workerTasks, task.assignmentId = id → hasEnded task.status = false
  | _ => True

/-- What an update in place may do to a task. -/
structure TaskMove (allowed : Prop) (x y : PersistedWorkerTaskRecord) : Prop where
  taskId : y.taskId = x.taskId
  ended : hasEnded x.status = true → y.status = x.status
  credited : isCredited y.status = true → allowed ∨ x.status = y.status

theorem TaskMove.same {allowed : Prop} {x y : PersistedWorkerTaskRecord}
    (hid : y.taskId = x.taskId) (hstatus : y.status = x.status) : TaskMove allowed x y :=
  ⟨hid, fun _ => hstatus, fun _ => .inr hstatus.symm⟩

theorem taskMoves_refl (allowed : Prop) (l : List PersistedWorkerTaskRecord) :
    List.Forall₂ (TaskMove allowed) l l := List.forall₂_same.mpr fun _ _ => .same rfl rfl

theorem TasksLawful.of_moves {allowed : Prop} {l mid : List PersistedWorkerTaskRecord}
    (h : List.Forall₂ (TaskMove allowed) l mid) (new : List PersistedWorkerTaskRecord)
    (hnew : ∀ task ∈ new, isCredited task.status = false) : TasksLawful allowed l (mid ++ new) where
  ended i task hi hended := by
    have hlt : i < l.length := (List.getElem?_eq_some_iff.mp hi).1
    have hlt' : i < mid.length := by
      have hlength := h.length_eq
      omega
    have hget : mid[i]? = some mid[i] := List.getElem?_eq_getElem hlt'
    have hmove := forall₂_getElem? h hi hget
    refine ⟨mid[i], ?_, hmove.taskId, hmove.ended hended⟩
    rw [List.getElem?_append_left hlt']
    exact hget
  credited i task' hi hcredited := by
    by_cases hlt : i < mid.length
    · rw [List.getElem?_append_left hlt] at hi
      have hlt' : i < l.length := by
        have hlength := h.length_eq
        omega
      have hget : l[i]? = some l[i] := List.getElem?_eq_getElem hlt'
      have hmove := forall₂_getElem? h hget hi
      exact (hmove.credited hcredited).imp id (fun hsame => ⟨l[i], hget, hsame⟩)
    · rw [List.getElem?_append_right (by omega)] at hi
      have hnone := hnew task' (List.mem_of_getElem? hi)
      rw [hcredited] at hnone
      cases hnone

theorem TasksLawful.of_forall₂ {allowed : Prop} {l l' : List PersistedWorkerTaskRecord}
    (h : List.Forall₂ (TaskMove allowed) l l') : TasksLawful allowed l l' := by
  have hlawful := TasksLawful.of_moves h [] (by simp)
  rwa [List.append_nil] at hlawful

theorem closeTask_move {allowed : Prop} (hallowed : allowed) (now : String)
    (task : PersistedWorkerTaskRecord) : TaskMove allowed task (closeTask now task) where
  taskId := rfl
  ended hended := by
    unfold closeTask
    cases hstatus : task.status with
    | aggregated => rfl
    | missed => rfl
    | leased => simp [hasEnded, hstatus] at hended
    | running => simp [hasEnded, hstatus] at hended
    | completed => simp [hasEnded, hstatus] at hended
    | failed => simp [hasEnded, hstatus] at hended
    | submitted => simp [hasEnded, hstatus] at hended
  credited _ := .inl hallowed

theorem submitTask_move {allowed : Prop} (hallowed : allowed) {task : PersistedWorkerTaskRecord}
    (h : hasEnded task.status = false) (now : String) :
    TaskMove allowed task (submitTask now task) where
  taskId := rfl
  ended hended := by
    rw [h] at hended
    cases hended
  credited _ := .inl hallowed

theorem reportedTask_move {task : PersistedWorkerTaskRecord} {status : TaskStatus}
    (h : LawfulReport task.status status) (allowed : Prop) (detail : String) (progressPercent : ℤ)
    (now : String) : TaskMove allowed task (reportedTask task status detail progressPercent now) where
  taskId := rfl
  ended hended := h.1 hended
  credited hcredited := .inr (h.2 hcredited).symm

theorem leasedAgain_value {s : StateStore} {worker : PersistedWorkerRecord}
    {assignment : PersistedAssignmentLease} {task : PersistedWorkerTaskRecord}
    (h : s.workerTasks.find? (isTaskFor assignment.assignmentId worker.workerId) = some task)
    (job : PersistedTrainingJobRecord) (dataset : PersistedDatasetRecord) (now : ℕ) :
    (leaseWorkerTask s worker assignment job dataset now).value =
      { task with updatedAt := currentTimestamp now } := by
  unfold isTaskFor at h
  simp only [leaseWorkerTask, h]

theorem leased_value {s : StateStore} {worker : PersistedWorkerRecord}
    {assignment : PersistedAssignmentLease}
    (h : s.workerTasks.find? (isTaskFor assignment.assignmentId worker.workerId) = none)
    (job : PersistedTrainingJobRecord) (dataset : PersistedDatasetRecord) (now : ℕ) :
    (leaseWorkerTask s worker assignment job dataset now).value =
      newWorkerTask worker assignment job dataset (currentTimestamp now) := by
  unfold isTaskFor at h
  simp only [leaseWorkerTask, h]
  rfl

structure LawfulStep (s : StateStore) (now : ℕ) (op : Operation) : Prop where
  tasks : TasksLawful (settles op = true) s.workerTasks (perform s now op).store.workerTasks
  failed : ∀ task, handedOut s now op = some task → task.status ≠ .failed

theorem perform_lawful {s : StateStore} {now : ℕ} {op : Operation} (h : Lawful s now op) :
    TasksLawful (settles op = true) s.workerTasks (perform s now op).store.workerTasks := by
  have hstep := perform_taskStep s now op
  generalize (perform s now op).store = s' at hstep ⊢
  cases hstep with
  | kept hassignments htasks hworkers =>
    rw [htasks]
    exact .of_forall₂ (taskMoves_refl _ _)
  | swept hop granted hgranted hassignments htasks hworkers =>
    rw [htasks]
    exact .of_forall₂ (taskMoves_refl _ _)
  | @accepted t m c jobId id r v s' x hcheck hfound hleased hassignments htasks hworkers =>
    rw [htasks]
    apply TasksLawful.of_forall₂
    rw [List.forall₂_map_right_iff]
    apply List.forall₂_same.mpr
    intro task htask
    by_cases hof : task.assignmentId = id
    · rw [if_pos hof]
      exact submitTask_move rfl (h x hcheck task htask hof) _
    · rw [if_neg hof]
      exact .same rfl rfl
  | @advanced t m r v s' job hjob hassignments htasks hworkers =>
    rw [htasks]
    apply TasksLawful.of_forall₂
    apply forall₂_map
    intro task
    by_cases hof : isTaskOf job.jobId r task = true
    · rw [if_pos hof]
      exact closeTask_move rfl _ task
    · rw [if_neg hof]
      exact .same rfl rfl
  | added hnew hassignments htasks hworkers =>
    rw [htasks]
    exact .of_forall₂ (taskMoves_refl _ _)
  | registeredAgain hknown hassignments htasks hworkers =>
    rw [htasks]
    exact .of_forall₂ (taskMoves_refl _ _)
  | leasedAgain hknown hassignments htasks hworkers =>
    rw [htasks]
    exact .of_forall₂ (updateFirst_forall₂ (fun _ => .same rfl rfl) hknown (.same rfl rfl))
  | leased hnew hassignments htasks hworkers =>
    rw [htasks]
    apply TasksLawful.of_moves (taskMoves_refl _ _)
    intro task htask
    rw [List.mem_singleton.mp htask]
    rfl
  | reported hfound hown hassignments htasks hworkers =>
    rw [htasks]
    exact .of_forall₂ (updateFirst_forall₂ (fun _ => .same rfl rfl) hfound
      (reportedTask_move (h _ hfound hown) _ _ _ _))
  | beat hassignments htasks hworkers =>
    rw [htasks]
    exact .of_forall₂ (taskMoves_refl _ _)

theorem accept_needs_unended {s : StateStore} {now : ℕ} {t m c jobId id : String} {r v : ℤ}
    {x : PersistedAssignmentLease}
    (hcheck : checkTrainingAssignmentSubmission (expireAssignmentsLocked s (currentTimestamp now))
      t m c jobId id r v (currentTimestamp now) = .passed x)
    (htasks : ∀ (i : ℕ) task, s.workerTasks[i]? = some task → hasEnded task.status = true →
      ∃ task', (perform s now (.acceptTrainingAssignmentSubmission t m c jobId id r v)
        ).store.workerTasks[i]? = some task' ∧ task'.taskId = task.taskId ∧
          task'.status = task.status)
    {task : PersistedWorkerTaskRecord} (htask : task ∈ s.workerTasks) (hof : task.assignmentId = id) :
    hasEnded task.status = false := by
  by_contra hended
  rw [Bool.not_eq_false] at hended
  obtain ⟨i, hi⟩ := List.mem_iff_getElem?.mp htask
  obtain ⟨task', hi', -, hstatus⟩ := htasks i task hi hended
  have hid : x.assignmentId = id := by
    obtain ⟨-, -, -, -, hx, -, -⟩ := check_passed hcheck
    simpa using List.find?_some hx
  have hmap : (perform s now (.acceptTrainingAssignmentSubmission t m c jobId id r v)
      ).store.workerTasks = s.workerTasks.map (fun task =>
        if task.assignmentId == id then submitTask (currentTimestamp now) task else task) := by
    simp only [perform, written, acceptTrainingAssignmentSubmission, hcheck, push_workerTasks,
      updateAssignment, expire_workerTasks, hid]
  rw [hmap, List.getElem?_map, hi] at hi'
  simp only [hof, beq_self_eq_true, if_true, Option.map_some, Option.some.injEq] at hi'
  rw [← hi'] at hstatus
  rw [← hstatus] at hended
  cases hended

theorem perform_lawful_iff (s : StateStore) (now : ℕ) (op : Operation) :
    LawfulStep s now op ↔ Lawful s now op := by
  constructor
  · intro h
    cases op with
    | updateWorkerTaskStatus workerId taskId status detail progressPercent =>
      intro task hfound hown
      subst hown
      have htasks : (perform s now (.updateWorkerTaskStatus task.workerId taskId status
          detail progressPercent)).store.workerTasks = updateFirst (fun task => task.taskId == taskId)
            (fun _ => reportedTask task (status.getD task.status) detail progressPercent
              (currentTimestamp now)) s.workerTasks := by
        simp only [perform, written, updateWorkerTaskStatus, hfound, ne_eq, not_true_eq_false, if_false,
          push_workerTasks]
        rfl
      obtain ⟨i, hi, hi'⟩ := getElem?_updateFirst (fun _ => reportedTask task
        (status.getD task.status) detail progressPercent (currentTimestamp now)) hfound
      rw [← htasks] at hi'
      constructor
      · intro hended
        obtain ⟨task', hget, -, hstatus⟩ := h.tasks.ended i task hi hended
        obtain rfl := Option.some.inj (hi'.symm.trans hget)
        exact hstatus
      · intro hcredited
        rcases h.tasks.credited i _ hi' hcredited with hsettles | ⟨old, hget, hstatus⟩
        · cases hsettles
        · obtain rfl := Option.some.inj (hi.symm.trans hget)
          exact hstatus.symm
    | leaseWorkerTask worker assignment job dataset =>
      intro task hfound
      have hvalue := leasedAgain_value hfound job dataset now
      exact h.failed { task with updatedAt := currentTimestamp now } (congrArg some hvalue)
    | acceptTrainingAssignmentSubmission t m c jobId id r v =>
      intro x hcheck task htask hof
      exact accept_needs_unended hcheck h.tasks.ended htask hof
    | _ => trivial
  · intro h
    refine ⟨perform_lawful h, ?_⟩
    intro task htask
    cases op with
    | leaseWorkerTask worker assignment job dataset =>
      obtain rfl := Option.some.inj htask
      cases hfound : s.workerTasks.find? (isTaskFor assignment.assignmentId worker.workerId) with
      | none =>
        rw [leased_value hfound]
        simp [newWorkerTask]
      | some known =>
        rw [leasedAgain_value hfound]
        exact h known hfound
    | _ => cases htask

/-- The operation of a step of the server meets the condition. -/
def LawfulAction (d : Deployment F) (s : Server F) (a : Action F) : Prop :=
  ∀ op now, storeOperation d s a = some (op, now) → Lawful s.world.store now op

def settlesIn (d : Deployment F) (s : Server F) (a : Action F) : Prop :=
  ∃ op now, storeOperation d s a = some (op, now) ∧ settles op = true

/-- The task which a step of `LeaseTrainingTask` hands out. -/
def handedOutIn (d : Deployment F) (s : Server F) (a : Action F) :
    Option PersistedWorkerTaskRecord :=
  (storeOperation d s a).bind (fun performed => handedOut s.world.store performed.2 performed.1)

/-- The lifecycle over one step of the server. -/
structure LifecycleStep (d : Deployment F) (s : Server F) (a : Action F) (s' : Server F) :
    Prop where
  tasks : TasksLawful (settlesIn d s a) s.world.store.workerTasks s'.world.store.workerTasks
  failed : ∀ task, handedOutIn d s a = some task → task.status ≠ .failed

theorem updateActiveKeyVersion_workerTasks (s : StateStore) (version : ℤ) (now : ℕ) :
    (updateActiveKeyVersion s version now).store.workerTasks = s.workerTasks := by
  unfold updateActiveKeyVersion
  split
  · rfl
  · exact push_workerTasks _ _

theorem restart_tasks {P : Crypto.Primitives} {s s' : Server F} {start : Start}
    (h : StoreReached s) (hs : restart P s start = some s') (allowed : Prop) :
    TasksLawful allowed s.world.store.workerTasks s'.world.store.workerTasks := by
  obtain ⟨w, hw, rfl⟩ := Option.map_eq_some_iff.mp hs
  obtain ⟨keys, -, rfl⟩ := Option.map_eq_some_iff.mp hw
  obtain ⟨n, p, hreach, hside⟩ := h
  have hsame : s.world.disk.workerTasks = s.world.store.workerTasks := by
    have hrecords := (run_backed hreach).same
    rw [hside.disk, hside.store] at hrecords
    exact (records_eq hrecords).2.2.2.2.2.1
  have hloaded : (StateStore.load s.world.disk start.now).store.workerTasks =
      (normalizedRecords s.world.disk).workerTasks := by
    have hrecords : records (StateStore.load s.world.disk start.now).store =
        records (normalizedRecords s.world.disk) := by
      rw [StateStore.load, records_trim, records_expire]
    exact (records_eq hrecords).2.2.2.2.2.1
  have htasks : (updateActiveKeyVersion (StateStore.load s.world.disk start.now).store
      keys.1.activeKeyVersion start.now).store.workerTasks =
        (normalizedRecords s.world.disk).workerTasks :=
    (updateActiveKeyVersion_workerTasks _ _ _).trans hloaded
  rw [← hsame]
  show TasksLawful allowed s.world.disk.workerTasks (updateActiveKeyVersion
    (StateStore.load s.world.disk start.now).store keys.1.activeKeyVersion start.now
    ).store.workerTasks
  rw [htasks]
  exact .of_forall₂ (forall₂_map _ (fun _ => .same rfl rfl) _)

theorem step_lifecycle_iff {s s' : Server F} {a : Action F} (h : StoreReached s)
    (hs : Process.step d s a = some s') : LifecycleStep d s a s' ↔ LawfulAction d s a := by
  by_cases hrestart : ∃ start, a = .restart start
  · obtain ⟨start, rfl⟩ := hrestart
    constructor
    · intro _ op now hop
      cases hop
    · intro _
      exact ⟨restart_tasks h hs _, fun task htask => (by cases htask)⟩
  · have hstore := step_store hs (fun start heq => hrestart ⟨start, heq⟩)
    cases hop : storeOperation d s a with
    | none =>
      rw [hop] at hstore
      constructor
      · intro _ op now hsome
        rw [hop] at hsome
        cases hsome
      · intro _
        refine ⟨?_, ?_⟩
        · rw [hstore]
          exact .of_forall₂ (taskMoves_refl _ _)
        · intro task htask
          rw [handedOutIn, hop] at htask
          cases htask
    | some performed =>
      obtain ⟨op, now⟩ := performed
      have hperform : s'.world.store = (perform s.world.store now op).store := by
        rw [hop] at hstore
        exact hstore
      have hsettles : settlesIn d s a ↔ settles op = true := by
        constructor
        · rintro ⟨op', now', hop', hsettles⟩
          rw [hop] at hop'
          cases hop'
          exact hsettles
        · intro hsettles
          exact ⟨op, now, hop, hsettles⟩
      have hlawful : LawfulAction d s a ↔ Lawful s.world.store now op := by
        constructor
        · intro hall
          exact hall op now hop
        · intro hone op' now' hop'
          rw [hop] at hop'
          cases hop'
          exact hone
      rw [hlawful, ← perform_lawful_iff]
      constructor
      · intro hstep
        refine ⟨?_, ?_⟩
        · rw [← hperform, ← hsettles]
          exact hstep.tasks
        · intro task htask
          apply hstep.failed
          rw [handedOutIn, hop]
          exact htask
      · intro hstep
        refine ⟨?_, ?_⟩
        · rw [hperform, hsettles]
          exact hstep.tasks
        · intro task htask
          rw [handedOutIn, hop] at htask
          exact hstep.failed task htask

/-- The tasks which have ended have the same status later. -/
def EndedStay (s s' : Server F) : Prop := ∀ (i : ℕ) task,
  s.world.store.workerTasks[i]? = some task → hasEnded task.status = true →
    ∃ task', s'.world.store.workerTasks[i]? = some task' ∧ task'.taskId = task.taskId ∧
      task'.status = task.status

theorem reaches_storeReached {ok : Server F → Action F → Prop} {s s' : Server F}
    (h : StoreReached s) (hrun : Reaches (Process.step d) ok s s') : StoreReached s' :=
  hrun.invariant h (fun _ _ _ hi _ hs => step_storeReached hi hs)

theorem run_endedStay {s s' : Server F} (h : StoreReached s)
    (hrun : Reaches (Process.step d) (LawfulAction d) s s') : EndedStay s s' := by
  induction hrun with
  | start =>
    intro i task hi _
    exact ⟨task, hi, rfl, rfl⟩
  | next hrun ha hs ih =>
    intro i task hi hended
    obtain ⟨mid, hmid, hid, hstatus⟩ := ih i task hi hended
    have hstep := (step_lifecycle_iff (reaches_storeReached h hrun) hs).mpr ha
    rw [← hstatus] at hended
    obtain ⟨task', hi', hid', hstatus'⟩ := hstep.tasks.ended i mid hmid hended
    exact ⟨task', hi', hid'.trans hid, hstatus'.trans hstatus⟩

/-- In a run whose reports, leases and acceptances meet the condition, an ended
task keeps its status, and the next step keeps the lifecycle exactly when it
meets the condition too. -/
theorem worker_task_lifecycle (d : Deployment F) (start : Start) (s s' : Server F)
    (h : Reaches (Process.step d) Free (Process.initial d start) s)
    (hrun : Reaches (Process.step d) (LawfulAction d) s s') :
    EndedStay s s' ∧ ∀ a t, Process.step d s' a = some t →
      (LifecycleStep d s' a t ↔ LawfulAction d s' a) := by
  have hs : StoreReached s := reaches_storeReached (initial_storeReached d start) h
  refine ⟨run_endedStay hs hrun, ?_⟩
  intro a t ht
  exact step_lifecycle_iff (reaches_storeReached hs hrun) ht

def workerPeer : Peer := ⟨true, "pqfl-worker"⟩

def calling (n now : ℕ) : List (Action Binary32) := List.replicate n (.call 0 now)

/-- The worker asks for a task, and its handler runs to the end. -/
def leasingTask (now : ℕ) : List (Action Binary32) :=
  .leaseTrainingTask ⟨"w", "", ""⟩ workerPeer :: calling 5 now

def reporting (taskId : String) (status : TaskStatus) (now : ℕ) : Action Binary32 :=
  .reportTaskStatus ⟨"w", taskId, status, "", 50⟩ workerPeer now

/-- A worker registers, and leases the task of the first round of a job. -/
def taskRun : List (Action Binary32) :=
  .registerWorker ⟨"w", "a", "t", "m", "h", "l", 1, [], 1⟩ workerPeer 0 :: calling 3 0 ++
    [addingDataset, creatingJob 3 1 1] ++ leasingTask 2

/-- Its client's weights are accepted, and the round is advanced. -/
def settledRun : List (Action Binary32) :=
  taskRun ++ .submitWeights (zeroSubmission "a" 1 jobAt1 leaseAt2) workerPeer :: proceeds 15 3

def taskAt2 : String := leaseAt2 ++ "::worker:w"

def taskAt5 : String := jobAt1 ++ "::round:2::client:a::1970-01-01T00:00:00.005Z::worker:w"

def isLawful (s : StateStore) : Operation → Bool
  | .updateWorkerTaskStatus workerId taskId status _ _ =>
    (s.workerTasks.find? (fun task => task.taskId == taskId)).all (fun task =>
      task.workerId != workerId || decide (LawfulReport task.status (status.getD task.status)))
  | .leaseWorkerTask worker assignment _ _ =>
    (s.workerTasks.find? (isTaskFor assignment.assignmentId worker.workerId)).all (fun task =>
      task.status != .failed)
  | .acceptTrainingAssignmentSubmission _ _ _ _ id _ _ =>
    s.workerTasks.all (fun task => task.assignmentId != id || !hasEnded task.status)
  | _ => true

theorem lawful_of_isLawful {s : StateStore} {op : Operation} (h : isLawful s op = true) (now : ℕ) :
    Lawful s now op := by
  cases op with
  | updateWorkerTaskStatus workerId taskId status detail progressPercent =>
    intro task hfound hown
    simp only [isLawful, hfound, Option.all_some, Bool.or_eq_true, bne_iff_ne,
      decide_eq_true_eq] at h
    exact h.resolve_left (not_not.mpr hown)
  | leaseWorkerTask worker assignment job dataset =>
    intro task hfound
    simpa [isLawful, hfound] using h
  | acceptTrainingAssignmentSubmission t m c jobId id r v =>
    intro x _ task htask hof
    have htasks := List.all_eq_true.mp h task htask
    simpa [hof] using htasks
  | _ => trivial

def isLawfulAction (s : Server Binary32) (a : Action Binary32) : Bool :=
  (storeOperation standardDeployment s a).all (fun performed => isLawful s.world.store performed.1)

theorem lawfulAction_of_isLawfulAction (s : Server Binary32) (a : Action Binary32)
    (h : isLawfulAction s a = true) : LawfulAction standardDeployment s a := by
  intro op now hop
  apply lawful_of_isLawful
  simpa [isLawfulAction, hop] using h

/-- The worker goes on with the second round while the task of the first stays
aggregated. -/
theorem worker_task_lifecycle_secondRound : ∃ s s',
    Reaches (Process.step standardDeployment) Free (Process.initial standardDeployment firstStart) s ∧
    Reaches (Process.step standardDeployment) (LawfulAction standardDeployment) s s' ∧
    s.world.store.workerTasks.map (·.status) = [.aggregated] ∧
    s'.world.store.workerTasks.map (·.status) = [.aggregated, .running] ∧
    EndedStay s s' ∧ ∀ a t, Process.step standardDeployment s' a = some t →
      (LifecycleStep standardDeployment s' a t ↔ LawfulAction standardDeployment s' a) := by
  have htest : (exec (Process.step standardDeployment) settledRun
      (Process.initial standardDeployment firstStart)).any (fun s =>
        s.world.store.workerTasks.map (·.status) == [.aggregated] &&
        (execTested (Process.step standardDeployment) isLawfulAction
          (leasingTask 5 ++ [reporting taskAt5 .running 6]) s).any (fun s' =>
            s'.world.store.workerTasks.map (·.status) == [.aggregated, .running])) = true := by
    decide +kernel
  rw [Option.any_eq_true] at htest
  obtain ⟨s, hs, hrest⟩ := htest
  rw [Bool.and_eq_true, Option.any_eq_true] at hrest
  obtain ⟨haggregated, s', hs', hrunning⟩ := hrest
  have hreaches := exec_reaches _ hs
  have hlawful := execTested_reaches isLawfulAction lawfulAction_of_isLawfulAction _ hs'
  exact ⟨s, s', hreaches, hlawful, by simpa using haggregated, by simpa using hrunning,
    worker_task_lifecycle standardDeployment firstStart s s' hreaches hlawful⟩

/-- The worker reports once more on the aggregated task. -/
theorem late_report_reopens : ∃ s s',
    Reaches (Process.step standardDeployment) Free (Process.initial standardDeployment firstStart) s ∧
    Process.step standardDeployment s (reporting taskAt2 .running 4) = some s' ∧
    s.world.store.workerTasks.map (·.status) = [.aggregated] ∧
    s'.world.store.workerTasks.map (·.status) = [.running] := by
  have htest : (exec (Process.step standardDeployment) settledRun
      (Process.initial standardDeployment firstStart)).any (fun s =>
        s.world.store.workerTasks.map (·.status) == [.aggregated] &&
        (Process.step standardDeployment s (reporting taskAt2 .running 4)).any (fun s' =>
          s'.world.store.workerTasks.map (·.status) == [.running])) = true := by
    decide +kernel
  rw [Option.any_eq_true] at htest
  obtain ⟨s, hs, hrest⟩ := htest
  rw [Bool.and_eq_true, Option.any_eq_true] at hrest
  obtain ⟨haggregated, s', hs', hrunning⟩ := hrest
  exact ⟨s, s', exec_reaches _ hs, hs', by simpa using haggregated, by simpa using hrunning⟩

end PqFl.TaskLifecycle
