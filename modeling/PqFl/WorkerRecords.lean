import PqFl.OrphanTasks

/-!
# The records of workers

A worker which is idle has no active task, and an active task is a task of that
worker which is under way. Six operations write the status and the active task
of a worker, each under conditions of its own.
-/

set_option autoImplicit false

namespace PqFl.WorkerRecords
open PqFl.Identifiers PqFl.Timestamps PqFl.StoreRecords PqFl.StateStore PqFl.ListUpdate
open PqFl.StoreRuns PqFl.Runs PqFl.LeaseLifecycle PqFl.WorkerSteps PqFl.OrphanTasks

structure Consistent (tasks : List PersistedWorkerTaskRecord) (w : PersistedWorkerRecord) :
    Prop where
  idle : w.status = .idle → w.activeTaskId = ""
  active : w.activeTaskId ≠ "" → ∃ task ∈ tasks, task.taskId = w.activeTaskId ∧
    task.workerId = w.workerId ∧ isUnderWay task.status = true

def WorkersConsistent (s : StateStore) : Prop := ∀ w ∈ s.workers, Consistent s.workerTasks w

/-- The services register idle workers without a task, and refuse a report of
any status but the allowed ones. -/
def FromServices : StoreAction → Prop
  | .perform (.upsertWorker record) _ => record.status = .idle ∧ record.activeTaskId = ""
  | .perform (.updateWorkerTaskStatus _ _ status _ _) _ => ∃ st, status = some st ∧ st ≠ .missed
  | _ => True

/-- What the operations would have to ask before they write to a worker. -/
def KeepsRecords (s : StateStore) (now : ℕ) : Operation → Prop
  | .upsertWorker record => ∀ w ∈ s.workers, w.workerId = record.workerId → w.activeTaskId = ""
  | .leaseWorkerTask worker assignment _ _ => ∀ w ∈ s.workers, w.workerId = worker.workerId →
      ∀ task, s.workerTasks.find? (isTaskFor assignment.assignmentId worker.workerId) =
        some task → isUnderWay task.status = true
  | .updateWorkerTaskStatus workerId taskId (some status) _ _ => isFinalReport status = true →
      ∀ task, s.workerTasks.find? (fun task => task.taskId == taskId) = some task →
        task.workerId = workerId → ∀ w ∈ s.workers, w.workerId = workerId →
          w.activeTaskId = "" ∨ w.activeTaskId = taskId
  | .recordWorkerHeartbeat workerId activeTaskId _ => ∀ w ∈ s.workers, w.workerId = workerId →
      if activeTaskId = "" then w.status = .leased ∨ w.activeTaskId = ""
      else ∃ task ∈ s.workerTasks, task.taskId = activeTaskId ∧ task.workerId = workerId ∧
        isUnderWay task.status = true
  | .acceptTrainingAssignmentSubmission t m c jobId id r v => ∀ x,
      checkTrainingAssignmentSubmission (expireAssignmentsLocked s (currentTimestamp now)) t m c
        jobId id r v (currentTimestamp now) = .passed x →
      ∀ task ∈ s.workerTasks, task.assignmentId = id → ∀ w ∈ s.workers,
        w.workerId = task.workerId → w.activeTaskId = "" ∨ w.activeTaskId = task.taskId
  | _ => True

def Careful (p : StoreProcess) : StoreAction → Prop
  | .perform op now => FromServices (.perform op now) ∧ KeepsRecords p.store now op
  | .load _ => True

def workerIds (workers : List PersistedWorkerRecord) : List String := workers.map (·.workerId)

theorem workerIds_updateFirst {p : PersistedWorkerRecord → Bool}
    {f : PersistedWorkerRecord → PersistedWorkerRecord} {workers : List PersistedWorkerRecord}
    (hf : ∀ w, p w = true → (f w).workerId = w.workerId) :
    workerIds (updateFirst p f workers) = workerIds workers := map_updateFirst hf workers

theorem workerIds_map {f : PersistedWorkerRecord → PersistedWorkerRecord}
    {workers : List PersistedWorkerRecord} (hf : ∀ w, (f w).workerId = w.workerId) :
    workerIds (workers.map f) = workerIds workers := by
  unfold workerIds
  rw [List.map_map]
  exact List.map_congr_left (fun w _ => hf w)

theorem workerIds_releaseAll (now : String) (tasks : List PersistedWorkerTaskRecord)
    (workers : List PersistedWorkerRecord) :
    workerIds (releaseAll now tasks workers) = workerIds workers := by
  induction tasks generalizing workers with
  | nil => rfl
  | cons task tasks ih => exact (ih _).trans (workerIds_updateFirst (fun _ _ => rfl))

theorem workerIds_releaseActive (now : String) (tasks : List PersistedWorkerTaskRecord)
    (workers : List PersistedWorkerRecord) :
    workerIds (releaseActive now tasks workers) = workerIds workers := by
  induction tasks generalizing workers with
  | nil => rfl
  | cons task tasks ih =>
    refine (ih _).trans (workerIds_map ?_)
    intro w
    split
    · rfl
    · rfl

theorem reportToWorker_workerId (now : String) (task : PersistedWorkerTaskRecord)
    (w : PersistedWorkerRecord) : (reportToWorker now task w).workerId = w.workerId := by
  unfold reportToWorker
  dsimp only
  split
  · rfl
  split
  · rfl
  split
  · rfl
  · rfl

theorem beatWorker_workerId (activeTaskId now : String) (w : PersistedWorkerRecord) :
    (beatWorker activeTaskId now w).workerId = w.workerId := by
  unfold beatWorker
  split
  · rfl
  split
  · rfl
  · rfl

theorem perform_workerIds {s : StateStore} (h : (workerIds s.workers).Nodup) (now : ℕ)
    (op : Operation) : (workerIds (perform s now op).store.workers).Nodup := by
  cases perform_taskStep s now op with
  | kept hassignments htasks hworkers =>
    rw [hworkers]
    exact h
  | swept hsweeps granted hgranted hassignments htasks hworkers =>
    rw [hworkers]
    exact h
  | accepted hcheck hfound hleased hassignments htasks hworkers =>
    rw [hworkers, workerIds_releaseAll]
    exact h
  | advanced hjob hassignments htasks hworkers =>
    rw [hworkers, workerIds_releaseActive]
    exact h
  | added hnew hassignments htasks hworkers =>
    rename_i record
    rw [hworkers, workerIds, List.map_append]
    have hfresh : record.workerId ∉ workerIds s.workers := by
      intro hmem
      obtain ⟨w, hw, hid⟩ := List.mem_map.mp hmem
      have hother := List.find?_eq_none.mp hnew w hw
      simp [hid] at hother
    exact List.nodup_append.mpr ⟨h, List.nodup_singleton _, by
      intro x hx y hy
      rw [List.mem_singleton.mp hy]
      rintro rfl
      exact hfresh hx⟩
  | registeredAgain hknown hassignments htasks hworkers =>
    rw [hworkers, workerIds_updateFirst]
    · exact h
    · intro w hw
      exact (beq_iff_eq.mp hw).symm
  | leasedAgain hknown hassignments htasks hworkers =>
    rw [hworkers, workerIds_map]
    · exact h
    · intro w
      split
      · rfl
      · rfl
  | leased hnew hassignments htasks hworkers =>
    rw [hworkers, workerIds_updateFirst]
    · exact h
    · exact fun _ _ => rfl
  | reported hfound hown hassignments htasks hworkers =>
    rw [hworkers, workerIds_updateFirst (fun w _ => reportToWorker_workerId _ _ w)]
    exact h
  | beat hassignments htasks hworkers =>
    rw [hworkers, workerIds_updateFirst (fun w _ => beatWorker_workerId _ _ w)]
    exact h

theorem consistent_free {tasks : List PersistedWorkerTaskRecord} {w : PersistedWorkerRecord}
    (h : w.activeTaskId = "") : Consistent tasks w where
  idle := fun _ => h
  active := fun hactive => absurd h hactive

theorem Consistent.tasks {tasks tasks' : List PersistedWorkerTaskRecord}
    {w : PersistedWorkerRecord} (h : Consistent tasks w)
    (htasks : ∀ task ∈ tasks, task.workerId = w.workerId → task.taskId = w.activeTaskId →
      isUnderWay task.status = true → ∃ task' ∈ tasks', task'.taskId = task.taskId ∧
        task'.workerId = task.workerId ∧ isUnderWay task'.status = true) :
    Consistent tasks' w where
  idle := h.idle
  active := by
    intro hactive
    obtain ⟨task, htask, hid, hworker, hunderWay⟩ := h.active hactive
    obtain ⟨task', htask', hid', hworker', hunderWay'⟩ :=
      htasks task htask hworker hid hunderWay
    exact ⟨task', htask', hid'.trans hid, hworker'.trans hworker, hunderWay'⟩

/-- With distinct identifiers an update of the first worker is an update of the
worker. -/
theorem mem_updateWorker {workerId : String}
    {f : PersistedWorkerRecord → PersistedWorkerRecord} {workers : List PersistedWorkerRecord}
    (hids : (workerIds workers).Nodup) {w' : PersistedWorkerRecord}
    (h : w' ∈ updateFirst (fun w => w.workerId == workerId) f workers) :
    ∃ w ∈ workers, (w.workerId = workerId ∧ w' = f w) ∨ (w.workerId ≠ workerId ∧ w' = w) := by
  have hid : ∀ w : PersistedWorkerRecord,
      (w.workerId == workerId) = true ↔ w.workerId = workerId := fun w => beq_iff_eq
  rw [updateFirst_eq_map hid f hids] at h
  obtain ⟨w, hw, rfl⟩ := List.mem_map.mp h
  refine ⟨w, hw, ?_⟩
  by_cases hid : w.workerId = workerId
  · exact .inl ⟨hid, if_pos (beq_iff_eq.mpr hid)⟩
  · exact .inr ⟨hid, if_neg (by simpa using hid)⟩

/-- What is left of a worker when some tasks have been taken from it. -/
def LeftOver (taken : PersistedWorkerRecord → Prop) (w w' : PersistedWorkerRecord) : Prop :=
  (w' = w ∧ ¬ taken w) ∨ w'.activeTaskId = ""

theorem releaseAll_leftOver (now : String) (tasks : List PersistedWorkerTaskRecord)
    (workers : List PersistedWorkerRecord) (hids : (workerIds workers).Nodup)
    (hown : ∀ task ∈ tasks, ∀ w ∈ workers, w.workerId = task.workerId →
      w.activeTaskId = "" ∨ w.activeTaskId = task.taskId) :
    ∀ w' ∈ releaseAll now tasks workers, ∃ w ∈ workers,
      LeftOver (fun w => ∃ task ∈ tasks, task.workerId = w.workerId) w w' := by
  induction tasks generalizing workers with
  | nil =>
    intro w hw
    exact ⟨w, hw, .inl ⟨rfl, by simp⟩⟩
  | cons task tasks ih =>
    intro w' hw'
    have hreleased : ∀ w ∈ workers, w.workerId = task.workerId →
        (releaseWorker now task.taskId w).activeTaskId = "" := by
      intro w hw hid
      unfold releaseWorker
      rcases hown task List.mem_cons_self w hw hid with hnone | hactive
      · simp [hnone]
      · simp [hactive]
    have hids₁ : (workerIds (updateFirst (fun w => w.workerId == task.workerId)
        (releaseWorker now task.taskId) workers)).Nodup := by
      rw [workerIds_updateFirst]
      · exact hids
      · exact fun _ _ => rfl
    have hown₁ : ∀ task' ∈ tasks, ∀ w₁ ∈ updateFirst (fun w => w.workerId == task.workerId)
        (releaseWorker now task.taskId) workers, w₁.workerId = task'.workerId →
          w₁.activeTaskId = "" ∨ w₁.activeTaskId = task'.taskId := by
      intro task' htask' w₁ hw₁ hid
      obtain ⟨w, hw, ⟨hmatch, rfl⟩ | ⟨-, rfl⟩⟩ := mem_updateWorker hids hw₁
      · exact .inl (hreleased w hw hmatch)
      · exact hown task' (List.mem_cons_of_mem _ htask') w₁ hw hid
    obtain ⟨w₁, hw₁, hleft⟩ := ih _ hids₁ hown₁ w' hw'
    obtain ⟨w, hw, ⟨hmatch, rfl⟩ | ⟨hother, rfl⟩⟩ := mem_updateWorker hids hw₁
    · refine ⟨w, hw, .inr ?_⟩
      rcases hleft with ⟨rfl, -⟩ | hnone
      · exact hreleased w hw hmatch
      · exact hnone
    · refine ⟨w₁, hw, ?_⟩
      rcases hleft with ⟨rfl, hkept⟩ | hnone
      · refine .inl ⟨rfl, ?_⟩
        rintro ⟨task', htask', hid⟩
        rcases List.mem_cons.mp htask' with rfl | htask'
        · exact hother hid.symm
        · exact hkept ⟨task', htask', hid⟩
      · exact .inr hnone

theorem releaseActive_leftOver (now : String) (tasks : List PersistedWorkerTaskRecord)
    (workers : List PersistedWorkerRecord) :
    ∀ w' ∈ releaseActive now tasks workers, ∃ w ∈ workers,
      LeftOver (fun w => ∃ task ∈ tasks, task.workerId = w.workerId ∧
        task.taskId = w.activeTaskId) w w' := by
  induction tasks generalizing workers with
  | nil =>
    intro w hw
    exact ⟨w, hw, .inl ⟨rfl, by simp⟩⟩
  | cons task tasks ih =>
    intro w' hw'
    obtain ⟨w₁, hw₁, hleft⟩ := ih _ w' hw'
    obtain ⟨w, hw, rfl⟩ := List.mem_map.mp hw₁
    refine ⟨w, hw, ?_⟩
    by_cases hmatch : w.workerId = task.workerId ∧ w.activeTaskId = task.taskId
    · rw [if_pos hmatch] at hleft
      rcases hleft with ⟨rfl, -⟩ | hnone
      · exact .inr (if_pos hmatch.2)
      · exact .inr hnone
    · rw [if_neg hmatch] at hleft
      rcases hleft with ⟨rfl, hkept⟩ | hnone
      · refine .inl ⟨rfl, ?_⟩
        rintro ⟨task', htask', hworker, hid⟩
        rcases List.mem_cons.mp htask' with rfl | htask'
        · exact hmatch ⟨hworker.symm, hid.symm⟩
        · exact hkept ⟨task', htask', hworker, hid⟩
      · exact .inr hnone

theorem consistent_accepted {s : StateStore} {id now : String} (h : WorkersConsistent s)
    (hids : (workerIds s.workers).Nodup)
    (hown : ∀ task ∈ s.workerTasks, task.assignmentId = id → ∀ w ∈ s.workers,
      w.workerId = task.workerId → w.activeTaskId = "" ∨ w.activeTaskId = task.taskId) :
    ∀ w' ∈ releaseAll now (s.workerTasks.filter (fun task => task.assignmentId == id)) s.workers,
      Consistent (s.workerTasks.map (fun task =>
        if task.assignmentId = id then submitTask now task else task)) w' := by
  intro w' hw'
  have hmine : ∀ task ∈ s.workerTasks.filter (fun task => task.assignmentId == id),
      ∀ w ∈ s.workers, w.workerId = task.workerId →
        w.activeTaskId = "" ∨ w.activeTaskId = task.taskId := by
    intro task htask
    obtain ⟨hmem, hid⟩ := List.mem_filter.mp htask
    exact hown task hmem (beq_iff_eq.mp hid)
  obtain ⟨w, hw, ⟨rfl, hkept⟩ | hnone⟩ := releaseAll_leftOver now _ _ hids hmine w' hw'
  · apply (h w' hw).tasks
    intro task htask hworker _ hunderWay
    have hid : task.assignmentId ≠ id := by
      intro hid
      exact hkept ⟨task, List.mem_filter.mpr ⟨htask, beq_iff_eq.mpr hid⟩, hworker⟩
    exact ⟨task, List.mem_map.mpr ⟨task, htask, if_neg hid⟩, rfl, rfl, hunderWay⟩
  · exact consistent_free hnone

theorem consistent_advanced {s : StateStore} {jobId now : String} {round : ℤ}
    (h : WorkersConsistent s) :
    ∀ w' ∈ releaseActive now (s.workerTasks.filter (isTaskOf jobId round)) s.workers,
      Consistent (s.workerTasks.map (fun task =>
        if isTaskOf jobId round task then closeTask now task else task)) w' := by
  intro w' hw'
  obtain ⟨w, hw, ⟨rfl, hkept⟩ | hnone⟩ := releaseActive_leftOver now _ _ w' hw'
  · apply (h w' hw).tasks
    intro task htask hworker hid hunderWay
    have hother : ¬ isTaskOf jobId round task = true := by
      intro hof
      exact hkept ⟨task, List.mem_filter.mpr ⟨htask, hof⟩, hworker, hid⟩
    exact ⟨task, List.mem_map.mpr ⟨task, htask, if_neg hother⟩, rfl, rfl, hunderWay⟩
  · exact consistent_free hnone

theorem consistent_occupied {tasks : List PersistedWorkerTaskRecord} {w : PersistedWorkerRecord}
    {task : PersistedWorkerTaskRecord} (now : String) (htask : task ∈ tasks)
    (hworker : task.workerId = w.workerId) (hunderWay : isUnderWay task.status = true) :
    Consistent tasks (occupyWorker now task.taskId w) where
  idle := by
    intro hidle
    cases hidle
  active := by
    intro _
    exact ⟨task, htask, rfl, hworker, hunderWay⟩

theorem consistent_reported {tasks : List PersistedWorkerTaskRecord} {w : PersistedWorkerRecord}
    {task : PersistedWorkerTaskRecord} (now : String) (htask : task ∈ tasks)
    (hworker : task.workerId = w.workerId) (hmissed : task.status ≠ .missed)
    (hfinal : isFinalReport task.status = true →
      w.activeTaskId = "" ∨ w.activeTaskId = task.taskId) :
    Consistent tasks (reportToWorker now task w) := by
  by_cases hend : isFinalReport task.status = true
  · apply consistent_free
    have hrunning : task.status ≠ .running := by
      intro hstatus
      rw [hstatus] at hend
      cases hend
    have hleased : task.status ≠ .leased := by
      intro hstatus
      rw [hstatus] at hend
      cases hend
    unfold reportToWorker
    dsimp only
    rw [if_neg hrunning, if_neg hleased, if_pos hend]
    rcases hfinal hend with hnone | hactive
    · simp [hnone]
    · simp [hactive]
  · have hunderWay : isUnderWay task.status = true := by
      cases hstatus : task.status with
      | leased => rfl
      | running => rfl
      | missed => exact absurd hstatus hmissed
      | completed => exact absurd (by rw [hstatus]; rfl) hend
      | failed => exact absurd (by rw [hstatus]; rfl) hend
      | submitted => exact absurd (by rw [hstatus]; rfl) hend
      | aggregated => exact absurd (by rw [hstatus]; rfl) hend
    unfold reportToWorker
    dsimp only
    by_cases hrunning : task.status = .running
    · rw [if_pos hrunning]
      constructor
      · intro hidle
        cases hidle
      · intro _
        exact ⟨task, htask, rfl, hworker, hunderWay⟩
    · have hleased : task.status = .leased := by
        simpa [isUnderWay, hrunning] using hunderWay
      rw [if_neg hrunning, if_pos hleased]
      constructor
      · intro hidle
        cases hidle
      · intro _
        exact ⟨task, htask, rfl, hworker, hunderWay⟩

theorem consistent_beat {tasks : List PersistedWorkerTaskRecord} {w : PersistedWorkerRecord}
    (activeTaskId now : String) (h : Consistent tasks w)
    (hbeat : if activeTaskId = "" then w.status = .leased ∨ w.activeTaskId = ""
      else ∃ task ∈ tasks, task.taskId = activeTaskId ∧ task.workerId = w.workerId ∧
        isUnderWay task.status = true) :
    Consistent tasks (beatWorker activeTaskId now w) := by
  unfold beatWorker
  by_cases hnone : activeTaskId = ""
  · rw [if_pos hnone] at hbeat
    rw [if_neg (not_not.mpr hnone)]
    by_cases hleased : w.status = .leased
    · rw [if_neg (not_not.mpr hleased)]
      exact ⟨h.idle, h.active⟩
    · rw [if_pos hleased]
      rcases hbeat with hstatus | hfree
      · exact absurd hstatus hleased
      · exact consistent_free hfree
  · rw [if_neg hnone] at hbeat
    rw [if_pos hnone]
    constructor
    · intro hidle
      cases hidle
    · intro _
      exact hbeat

theorem perform_consistent {s : StateStore} {now : ℕ} {op : Operation} (h : WorkersConsistent s)
    (hids : (workerIds s.workers).Nodup) (hfrom : FromServices (.perform op now))
    (hkeeps : KeepsRecords s now op) : WorkersConsistent (perform s now op).store := by
  unfold WorkersConsistent
  cases perform_taskStep s now op with
  | kept hassignments htasks hworkers =>
    rw [htasks, hworkers]
    exact h
  | swept hsweeps granted hgranted hassignments htasks hworkers =>
    rw [htasks, hworkers]
    exact h
  | accepted hcheck hfound hleased hassignments htasks hworkers =>
    rw [htasks, hworkers]
    exact consistent_accepted h hids (hkeeps _ hcheck)
  | advanced hjob hassignments htasks hworkers =>
    rw [htasks, hworkers]
    exact consistent_advanced h
  | added hnew hassignments htasks hworkers =>
    rw [htasks, hworkers]
    apply forall_append_one h
    apply consistent_free
    simp [savedWorker, hfrom.2]
  | registeredAgain hknown hassignments htasks hworkers =>
    rename_i record existing
    rw [htasks, hworkers]
    intro w' hw'
    have hfree : existing.activeTaskId = "" :=
      hkeeps existing (List.mem_of_find?_eq_some hknown) (by simpa using List.find?_some hknown)
    obtain ⟨w, hw, ⟨-, rfl⟩ | ⟨-, rfl⟩⟩ := mem_updateWorker hids hw'
    · apply consistent_free
      simp [savedWorker, hfrom.2, hfree]
    · exact h _ hw
  | leasedAgain hknown hassignments htasks hworkers =>
    rename_i worker assignment job dataset task
    rw [htasks, hworkers]
    have hfor := List.find?_some hknown
    simp only [isTaskFor, Bool.and_eq_true, beq_iff_eq] at hfor
    intro w' hw'
    obtain ⟨w, hw, rfl⟩ := List.mem_map.mp hw'
    by_cases hid : w.workerId = worker.workerId
    · rw [if_pos (beq_iff_eq.mpr hid)]
      have hoccupied := consistent_occupied (currentTimestamp now) (mem_updateFirst
        (f := fun _ => { task with updatedAt := currentTimestamp now }) hknown)
        (hfor.2.trans hid.symm) (hkeeps w hw hid task hknown)
      exact hoccupied
    · rw [if_neg (by simpa using hid)]
      apply (h w hw).tasks
      intro other hother hworker _ hunderWay
      rcases mem_updateFirst_of_mem _ hother with hmem | hfound
      · exact ⟨other, hmem, rfl, rfl, hunderWay⟩
      · rw [hfound] at hknown
        obtain rfl := Option.some.inj hknown
        exact absurd (hworker.symm.trans hfor.2) hid
  | leased hnew hassignments htasks hworkers =>
    rename_i worker assignment job dataset
    rw [htasks, hworkers]
    intro w' hw'
    have hadded : newWorkerTask worker assignment job dataset (currentTimestamp now) ∈
        s.workerTasks ++ [newWorkerTask worker assignment job dataset (currentTimestamp now)] :=
      List.mem_append_right _ List.mem_cons_self
    obtain ⟨w, hw, ⟨hid, rfl⟩ | ⟨-, rfl⟩⟩ := mem_updateWorker hids hw'
    · have hworker : (newWorkerTask worker assignment job dataset (currentTimestamp now)).workerId =
          w.workerId := hid.symm
      exact consistent_occupied _ hadded hworker rfl
    · apply (h w' hw).tasks
      intro other hother _ _ hunderWay
      exact ⟨other, List.mem_append_left _ hother, rfl, rfl, hunderWay⟩
  | reported hfound hown hassignments htasks hworkers =>
    rename_i workerId taskId detail status progressPercent task
    rw [htasks, hworkers]
    obtain ⟨st, rfl, hmissed⟩ := hfrom
    intro w' hw'
    obtain ⟨w, hw, ⟨hid, rfl⟩ | ⟨hother, rfl⟩⟩ := mem_updateWorker hids hw'
    · have hreported := mem_updateFirst (f := fun _ => reportedTask task st detail progressPercent
        (currentTimestamp now)) hfound
      apply consistent_reported _ hreported (hown.trans hid.symm) hmissed
      intro hend
      have htaskId : task.taskId = taskId := by simpa using List.find?_some hfound
      rw [show (reportedTask task st detail progressPercent (currentTimestamp now)).taskId = taskId
        from htaskId]
      exact hkeeps hend task hfound hown w hw hid
    · apply (h w' hw).tasks
      intro other hmem hworker _ hunderWay
      rcases mem_updateFirst_of_mem _ hmem with hkept | hreplaced
      · exact ⟨other, hkept, rfl, rfl, hunderWay⟩
      · rw [hreplaced] at hfound
        obtain rfl := Option.some.inj hfound
        exact absurd (hworker.symm.trans hown) hother
  | beat hassignments htasks hworkers =>
    rename_i workerId activeTaskId detail
    rw [htasks, hworkers]
    intro w' hw'
    obtain ⟨w, hw, ⟨hid, rfl⟩ | ⟨-, rfl⟩⟩ := mem_updateWorker hids hw'
    · apply consistent_beat activeTaskId _ (h w hw)
      rw [hid]
      exact hkeeps w hw hid
    · exact h _ hw

theorem load_consistent {image : StateStore} (htidy : Tidy image) (now : ℕ)
    (h : WorkersConsistent image) : WorkersConsistent (load image now).store := by
  have hloaded : records (load image now).store = records (normalizedRecords image) := by
    rw [load, records_trim, records_expire]
  intro w hw
  rw [(load_fields htidy now).2.2.2.2.1] at hw
  rw [(records_eq hloaded).2.2.2.2.2.1]
  apply (h w hw).tasks
  intro task htask _ _ hunderWay
  exact ⟨_, List.mem_map.mpr ⟨task, htask, rfl⟩, rfl, rfl, hunderWay⟩

/-- The workers are told apart by their identifiers, and they are consistent. -/
structure InOrder (s : StateStore) : Prop where
  ids : (workerIds s.workers).Nodup
  consistent : WorkersConsistent s

theorem step_inOrder {p p' : StoreProcess} {a : StoreAction} (hb : Backed p) (h : InOrder p.store)
    (ha : Careful p a) (hs : StoreRuns.step p a = some p') : InOrder p'.store := by
  cases a with
  | perform op now =>
    obtain rfl := Option.some.inj hs
    exact ⟨perform_workerIds h.ids now op, perform_consistent h.consistent h.ids ha.1 ha.2⟩
  | load now =>
    obtain rfl := Option.some.inj hs
    obtain ⟨-, -, -, -, hworkers, htasks, -⟩ := records_eq hb.same
    constructor
    · dsimp only
      rw [(load_fields hb.disk now).2.2.2.2.1, hworkers]
      exact h.ids
    · apply load_consistent hb.disk now
      unfold WorkersConsistent
      rw [hworkers, htasks]
      exact h.consistent

/-- While every operation asks before it writes to a worker, an idle worker has
no active task, and an active task is under way. -/
theorem workers_consistent (auditRetention : ℕ) (p : StoreProcess)
    (h : Reaches StoreRuns.step Careful (StoreRuns.initial auditRetention) p) :
    WorkersConsistent p.store := by
  have hall : Backed p ∧ InOrder p.store := by
    apply h.invariant (I := fun p => Backed p ∧ InOrder p.store)
    · refine ⟨initial_backed auditRetention, List.nodup_nil, ?_⟩
      intro w hw
      cases hw
    · intro p a p' hp ha hs
      exact ⟨step_backed hp.1 hs, step_inOrder hp.1 hp.2 ha hs⟩
  exact hall.2.consistent

def handles (p : StoreProcess) : StoreAction → Bool
  | .perform (.upsertWorker record) _ =>
    p.store.workers.isEmpty && record.status == .idle && record.activeTaskId == ""
  | .perform (.leaseWorkerTask _ _ _ _) _ => p.store.workerTasks.isEmpty
  | .perform (.updateWorkerTaskStatus _ taskId (some status) _ _) _ =>
    status != .missed && p.store.workers.all (fun w => w.activeTaskId == taskId)
  | .perform (.leaseTrainingAssignment _ _ _ _ _ _) _ => true
  | .perform (.createTrainingJob _) _ => true
  | _ => false

theorem careful_of_handles (p : StoreProcess) (a : StoreAction) (h : handles p a = true) :
    Careful p a := by
  cases a with
  | load now => cases h
  | perform op now =>
    cases op with
    | upsertWorker record =>
      simp only [handles, Bool.and_eq_true, beq_iff_eq] at h
      refine ⟨⟨h.1.2, h.2⟩, ?_⟩
      intro w hw
      rw [List.isEmpty_iff.mp h.1.1] at hw
      cases hw
    | leaseWorkerTask worker assignment job dataset =>
      refine ⟨trivial, ?_⟩
      intro _ _ _ task hfound
      rw [List.isEmpty_iff.mp h] at hfound
      cases hfound
    | updateWorkerTaskStatus workerId taskId status detail progressPercent =>
      cases status with
      | none => cases h
      | some status =>
        simp only [handles, Bool.and_eq_true, bne_iff_ne] at h
        refine ⟨⟨status, rfl, h.1⟩, ?_⟩
        intro _ _ _ _ w hw _
        exact .inr (beq_iff_eq.mp (List.all_eq_true.mp h.2 w hw))
    | leaseTrainingAssignment t m c version minClients ttl => exact ⟨trivial, trivial⟩
    | createTrainingJob record => exact ⟨trivial, trivial⟩
    | _ => cases h

theorem workers_consistent_completed : ∃ p,
    Reaches StoreRuns.step Careful (StoreRuns.initial 10) p ∧
    p.store.workers.map (·.status) = [.idle] ∧
    p.store.workerTasks.map (·.status) = [.completed] ∧ WorkersConsistent p.store := by
  have htest : (execTested StoreRuns.step handles (startedTask ++
      [.perform (.updateWorkerTaskStatus "w" trainingTask (some .completed) "" 100) 5])
      (StoreRuns.initial 10)).any (fun p => p.store.workers.map (·.status) == [.idle] &&
        p.store.workerTasks.map (·.status) == [.completed]) = true := by
    decide +kernel
  rw [Option.any_eq_true] at htest
  obtain ⟨p, hp, hstatus⟩ := htest
  have hreaches := execTested_reaches handles careful_of_handles _ hp
  rw [Bool.and_eq_true, beq_iff_eq, beq_iff_eq] at hstatus
  exact ⟨p, hreaches, hstatus.1, hstatus.2, workers_consistent 10 p hreaches⟩

/-- The worker of a task which is running registers again: it is idle, and still
has its active task. -/
theorem registered_again_inconsistent : ∃ p,
    Reaches StoreRuns.step (fun _ => FromServices) (StoreRuns.initial 10) p ∧
    ¬ WorkersConsistent p.store := by
  have htest : (exec StoreRuns.step (startedTask ++
      [.perform (.upsertWorker trainingWorker) 5]) (StoreRuns.initial 10)).any
      (fun p => p.store.workers.any (fun w => w.status == .idle && w.activeTaskId != "")) =
        true := by
    decide +kernel
  rw [Option.any_eq_true] at htest
  obtain ⟨p, hp, hidle⟩ := htest
  have hservices : ∀ a ∈ startedTask ++ [.perform (.upsertWorker trainingWorker) 5],
      FromServices a := by
    intro a ha
    simp only [startedTask, List.cons_append, List.nil_append, List.mem_cons,
      List.not_mem_nil, or_false] at ha
    rcases ha with rfl | rfl | rfl | rfl | rfl | rfl
    · exact ⟨rfl, rfl⟩
    · trivial
    · trivial
    · trivial
    · exact ⟨.running, rfl, by decide⟩
    · exact ⟨rfl, rfl⟩
  refine ⟨p, exec_reaches_of _ (fun a ha _ => hservices a ha) hp, ?_⟩
  intro hconsistent
  obtain ⟨w, hw, hmatch⟩ := List.any_eq_true.mp hidle
  rw [Bool.and_eq_true, beq_iff_eq, bne_iff_ne] at hmatch
  exact hmatch.2 ((hconsistent w hw).idle hmatch.1)

end PqFl.WorkerRecords
