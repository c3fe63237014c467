import PqFl.StoreRuns

/-!
# The life of a training job

A job is planned, runs, and ends completed or superseded. It counts rounds up
to its target and is completed with the last of them. What an operation does to
the jobs is said once; the counters and the final states follow from that.
-/

set_option autoImplicit false

namespace PqFl.JobLifecycle
open PqFl.Identifiers PqFl.Timestamps PqFl.StoreRecords PqFl.StateStore PqFl.ListUpdate
open PqFl.JobLedger PqFl.StoreRuns PqFl.Runs

/-- A job which an operation starts, or finds to be at its target. -/
inductive Turned (now : ℕ) (j : PersistedTrainingJobRecord) : PersistedTrainingJobRecord → Prop
  | same : Turned now j j
  | running (hactive : isActiveJobStatus j.status = true) :
      Turned now j (runningJob (currentTimestamp now) j)
  | atTarget (hactive : isActiveJobStatus j.status = true)
      (htarget : j.targetRounds > 0 ∧ j.completedRounds ≥ j.targetRounds) :
      Turned now j { j with status := .completed }

inductive JobsStep (s : StateStore) (now : ℕ) : Operation → List PersistedTrainingJobRecord → Prop
  | turned {op : Operation} {jobs : List PersistedTrainingJobRecord}
      (h : List.Forall₂ (Turned now) s.trainingJobs jobs) : JobsStep s now op jobs
  | created {record : PersistedTrainingJobRecord} :
      JobsStep s now (.createTrainingJob record)
        (s.trainingJobs.map (supersede (normalizeTenant record.tenantId)
          (normalizeModel record.modelId)) ++ [(createTrainingJob s record now).value])
  | advanced {t m : String} {r v : ℤ} {job : PersistedTrainingJobRecord}
      {jobs : List PersistedTrainingJobRecord} (hactive : isActiveJobStatus job.status = true)
      (h : List.Forall₂ (fun j j' => j' = j ∨
        (j = job ∧ j' = advanceJob (currentTimestamp now) r v job)) s.trainingJobs jobs) :
      JobsStep s now (.advanceTrainingJobRound t m r v) jobs

theorem turned_refl (now : ℕ) (jobs : List PersistedTrainingJobRecord) :
    List.Forall₂ (Turned now) jobs jobs := List.forall₂_same.mpr fun _ _ => .same

theorem JobsStep.of_jobRecords {s s' : StateStore} {now : ℕ} {op : Operation}
    (h : jobRecords s' = jobRecords s) : JobsStep s now op s'.trainingJobs := by
  apply JobsStep.turned
  rw [(Prod.mk.inj h).1]
  exact turned_refl now _

theorem lease_turned (s : StateStore) (t m c : String) (v minClients ttl : ℤ) (now : ℕ) :
    List.Forall₂ (Turned now) s.trainingJobs
      (leaseTrainingAssignment s t m c v minClients ttl now).store.trainingJobs := by
  have hjobs := (expireAssignmentsLocked_frame s (currentTimestamp now)).1
  unfold leaseTrainingAssignment
  dsimp only
  generalize expireAssignmentsLocked s (currentTimestamp now) = swept at *
  rw [← hjobs]
  split
  · exact turned_refl now _
  · rename_i job hjob
    have hactive := (getActive_mem hjob).2.2.2
    split
    · rename_i htarget
      exact updateLast_forall₂ (fun _ => .same) hjob (.atTarget hactive htarget)
    · have hrun : List.Forall₂ (Turned now) swept.trainingJobs (updateActiveTrainingJob swept t m
          (fun _ => runningJob (currentTimestamp now) job)).trainingJobs :=
        updateLast_forall₂ (fun _ => .same) hjob (.running hactive)
      rcases grantLease_cases (updateActiveTrainingJob swept t m fun _ =>
          runningJob (currentTimestamp now) job) (runningJob (currentTimestamp now) job) t m c v
          minClients ttl now with h | ⟨event, h⟩
      · rw [h]
        exact hrun
      · rw [h, (pushAuditEvent_frame _ _).1]
        exact hrun

theorem perform_jobs (s : StateStore) (now : ℕ) (op : Operation) :
    JobsStep s now op (perform s now op).store.trainingJobs := by
  cases op with
  | recordClientRegistration record =>
    exact .of_jobRecords (recordClientRegistration_frame _ _ now).1
  | updateClientLastRound t m c round =>
    exact .of_jobRecords (updateClientLastRound_frame _ _ _ _ _).1
  | recordWeightSubmission t m c round =>
    exact .of_jobRecords (recordWeightSubmission_frame _ _ _ _ _ _).1
  | recordAggregatedModel t m round path strategy keyVersion clientCount weightDimension =>
    exact .of_jobRecords (recordAggregatedModel_frame _ _ _ _ _ _ _ _ _ _).1
  | rollbackModel t m targetVersion => exact .of_jobRecords (rollbackModel_frame _ _ _ _ _).1
  | updateActiveKeyVersion version => exact .of_jobRecords (updateActiveKeyVersion_frame _ _ _).1
  | recordAuditEvent event => exact .of_jobRecords (recordAuditEvent_frame _ _ _).1
  | upsertDataset record => exact .of_jobRecords (upsertDataset_frame _ _ _).1
  | createTrainingJob record =>
    have hjobs := (create_jobs s record now).1
    simp only [perform, written, hjobs]
    exact .created
  | leaseTrainingAssignment t m c version minClients ttl =>
    exact .turned (lease_turned s t m c version minClients ttl now)
  | validateTrainingAssignmentSubmission t m c jobId id round version =>
    apply JobsStep.turned
    simp only [perform, written, validate_jobs]
    exact turned_refl now _
  | acceptTrainingAssignmentSubmission t m c jobId id round version =>
    apply JobsStep.turned
    simp only [perform, written, accept_jobs]
    exact turned_refl now _
  | advanceTrainingJobRound t m round version =>
    cases hjob : getActiveTrainingJob s t m with
    | none =>
      apply JobsStep.turned
      simp only [perform, written, advance_none hjob]
      exact turned_refl now _
    | some job =>
      exact .advanced (getActive_mem hjob).2.2.2 (advance_jobs hjob round version now)
  | upsertWorker record => exact .of_jobRecords (upsertWorker_frame _ _ _).1
  | leaseWorkerTask worker assignment job dataset =>
    exact .of_jobRecords (leaseWorkerTask_frame _ _ _ _ _ _).1
  | updateWorkerTaskStatus workerId taskId status detail progressPercent =>
    exact .of_jobRecords (updateWorkerTaskStatus_frame _ _ _ _ _ _ _).1
  | recordWorkerHeartbeat workerId activeTaskId detail =>
    exact .of_jobRecords (recordWorkerHeartbeat_frame _ _ _ _ _).1

/-- The counter of a job is at its target exactly when the job is completed. -/
structure Counted (j : PersistedTrainingJobRecord) : Prop where
  nonneg : 0 ≤ j.completedRounds
  bounded : j.completedRounds ≤ j.targetRounds
  completed : j.status = .completed ↔ j.completedRounds = j.targetRounds

def isFinalStatus (status : JobStatus) : Bool := status == .completed || status == .superseded

/-- A job keeps its identity and its final state, and it never counts down. -/
structure JobLater (j j' : PersistedTrainingJobRecord) : Prop where
  jobId : j'.jobId = j.jobId
  tenantId : j'.tenantId = j.tenantId
  modelId : j'.modelId = j.modelId
  targetRounds : j'.targetRounds = j.targetRounds
  counts : j.completedRounds ≤ j'.completedRounds
  final : isFinalStatus j.status = true → j'.status = j.status

theorem JobLater.refl (j : PersistedTrainingJobRecord) : JobLater j j :=
  ⟨rfl, rfl, rfl, rfl, le_rfl, fun _ => rfl⟩

theorem JobLater.trans {i j k : PersistedTrainingJobRecord} (h : JobLater i j)
    (h' : JobLater j k) : JobLater i k where
  jobId := h'.jobId.trans h.jobId
  tenantId := h'.tenantId.trans h.tenantId
  modelId := h'.modelId.trans h.modelId
  targetRounds := h'.targetRounds.trans h.targetRounds
  counts := h.counts.trans h'.counts
  final hfinal := by
    have hj := h.final hfinal
    rw [← hj] at hfinal
    exact (h'.final hfinal).trans hj

theorem Counted.active {j : PersistedTrainingJobRecord} (h : Counted j)
    (hactive : isActiveJobStatus j.status = true) :
    isFinalStatus j.status = false ∧ j.completedRounds < j.targetRounds := by
  have hnot : j.status ≠ .completed := by
    intro hcompleted
    rw [hcompleted] at hactive
    cases hactive
  constructor
  · cases hs : j.status with
    | planned => rfl
    | running => rfl
    | completed => exact absurd hs hnot
    | superseded =>
      rw [hs] at hactive
      cases hactive
  · have hne : j.completedRounds ≠ j.targetRounds := fun heq => hnot (h.completed.mpr heq)
    have := h.bounded
    omega

theorem runningJob_counted (now : String) {j : PersistedTrainingJobRecord} (h : Counted j) :
    Counted (runningJob now j) ∧ JobLater j (runningJob now j) := by
  unfold runningJob
  split
  · rename_i hplanned
    have hrunning : JobStatus.running = .completed ↔ j.completedRounds = j.targetRounds := by
      rw [← h.completed, hplanned]
      simp
    refine ⟨⟨h.nonneg, h.bounded, hrunning⟩, rfl, rfl, rfl, rfl, le_rfl, ?_⟩
    intro hfinal
    rw [hplanned] at hfinal
    cases hfinal
  · exact ⟨h, .refl j⟩

theorem Turned.counted {now : ℕ} {j j' : PersistedTrainingJobRecord} (ht : Turned now j j')
    (h : Counted j) : Counted j' ∧ JobLater j j' := by
  cases ht with
  | same => exact ⟨h, .refl j⟩
  | running hactive => exact runningJob_counted _ h
  | atTarget hactive htarget =>
    -- an active job is below its target
    have := (h.active hactive).2
    omega

theorem supersede_counted (t m : String) {j : PersistedTrainingJobRecord} (h : Counted j) :
    Counted (supersede t m j) ∧ JobLater j (supersede t m j) := by
  unfold supersede
  split
  · rename_i hof
    obtain ⟨hfinal, hbelow⟩ := h.active (isActiveJobOf_iff.mp hof).2.2
    have hsuperseded : JobStatus.superseded = .completed ↔ j.completedRounds = j.targetRounds := by
      have hne : j.completedRounds ≠ j.targetRounds := by omega
      simp [hne]
    refine ⟨⟨h.nonneg, h.bounded, hsuperseded⟩, rfl, rfl, rfl, rfl, le_rfl, ?_⟩
    intro hf
    rw [hfinal] at hf
    cases hf
  · exact ⟨h, .refl j⟩

theorem advanceJob_counted (now : String) (r v : ℤ) {j : PersistedTrainingJobRecord}
    (h : Counted j) (hactive : isActiveJobStatus j.status = true) :
    Counted (advanceJob now r v j) ∧ JobLater j (advanceJob now r v j) := by
  obtain ⟨hfinal, hbelow⟩ := h.active hactive
  have hnonneg := h.nonneg
  constructor
  · constructor
    · show 0 ≤ j.completedRounds + 1
      omega
    · show j.completedRounds + 1 ≤ j.targetRounds
      omega
    · show (if _ then JobStatus.completed else .running) = .completed ↔
        j.completedRounds + 1 = j.targetRounds
      by_cases hlast : j.targetRounds > 0 ∧ j.completedRounds + 1 ≥ j.targetRounds
      · rw [if_pos hlast]
        have : j.completedRounds + 1 = j.targetRounds := by omega
        simp [this]
      · rw [if_neg hlast]
        have : j.completedRounds + 1 ≠ j.targetRounds := by omega
        simp [this]
  · refine ⟨rfl, rfl, rfl, rfl, ?_, ?_⟩
    · show j.completedRounds ≤ j.completedRounds + 1
      omega
    · intro hf
      rw [hfinal] at hf
      cases hf

/-- Jobs are created the way the admin service creates them. -/
def CreatesPlanned (_ : StoreProcess) : StoreAction → Prop
  | .perform (.createTrainingJob record) _ =>
    record.status = .planned ∧ 1 ≤ record.targetRounds ∧ record.completedRounds = 0
  | _ => True

theorem created_counted {s : StateStore} {record : PersistedTrainingJobRecord} {now : ℕ}
    (h : record.status = .planned ∧ 1 ≤ record.targetRounds ∧ record.completedRounds = 0) :
    Counted (createTrainingJob s record now).value := by
  obtain ⟨hplanned, htarget, hzero⟩ := h
  constructor
  · show 0 ≤ record.completedRounds
    omega
  · show record.completedRounds ≤ record.targetRounds
    omega
  · show record.status = .completed ↔ record.completedRounds = record.targetRounds
    have hne : record.completedRounds ≠ record.targetRounds := by omega
    simp [hplanned, hne]

theorem counted_later {R : PersistedTrainingJobRecord → PersistedTrainingJobRecord → Prop}
    (hR : ∀ j j', R j j' → Counted j → Counted j' ∧ JobLater j j')
    {jobs jobs' : List PersistedTrainingJobRecord} (h : List.Forall₂ R jobs jobs')
    (hcounted : ∀ j ∈ jobs, Counted j) :
    (∀ j ∈ jobs', Counted j) ∧ List.Forall₂ JobLater jobs jobs' := by
  induction h with
  | nil => exact ⟨hcounted, .nil⟩
  | cons hxy _ ih =>
    obtain ⟨hy, hlater⟩ := hR _ _ hxy (hcounted _ List.mem_cons_self)
    obtain ⟨hrest, hlaters⟩ := ih (fun j hj => hcounted j (List.mem_cons_of_mem _ hj))
    refine ⟨?_, .cons hlater hlaters⟩
    intro j hj
    rcases List.mem_cons.mp hj with rfl | hj
    · exact hy
    · exact hrest j hj

theorem step_jobs {p p' : StoreProcess} {a : StoreAction} (hb : Backed p)
    (h : ∀ j ∈ p.store.trainingJobs, Counted j) (ha : CreatesPlanned p a)
    (hs : step p a = some p') :
    (∀ j ∈ p'.store.trainingJobs, Counted j) ∧
      Grown JobLater p.store.trainingJobs p'.store.trainingJobs := by
  rcases step_cases hs with ⟨op, now, rfl, hstore, -⟩ | ⟨now, rfl, hstore, -⟩
  · rw [hstore]
    have hjobs := perform_jobs p.store now op
    generalize (perform p.store now op).store.trainingJobs = jobs at hjobs ⊢
    cases hjobs with
    | turned hturned =>
      obtain ⟨hcounted, hlater⟩ := counted_later (fun _ _ ht hj => ht.counted hj) hturned h
      exact ⟨hcounted, .of_forall₂ hlater⟩
    | @created record =>
      have hsuperseded := forall₂_map (R := fun j j' => j' = supersede
        (normalizeTenant record.tenantId) (normalizeModel record.modelId) j) _ (fun _ => rfl)
        p.store.trainingJobs
      obtain ⟨hcounted, hlater⟩ := counted_later (by
        rintro j j' rfl hj
        exact supersede_counted _ _ hj) hsuperseded h
      exact ⟨forall_append_one hcounted (created_counted ha), _, _, rfl, hlater⟩
    | @advanced t m r v job jobs hactive hadvanced =>
      obtain ⟨hcounted, hlater⟩ := counted_later (fun j j' ht hj => by
        rcases ht with rfl | ⟨rfl, rfl⟩
        · exact ⟨hj, .refl _⟩
        · exact advanceJob_counted (currentTimestamp now) r v hj hactive) hadvanced h
      exact ⟨hcounted, .of_forall₂ hlater⟩
  · rw [hstore, (load_backed hb now).2.2]
    exact ⟨h, .refl JobLater.refl _⟩

theorem run_counted {n : ℕ} {p : StoreProcess} (h : Reaches step CreatesPlanned (initial n) p) :
    ∀ j ∈ p.store.trainingJobs, Counted j := by
  have hboth := h.strengthen (initial_backed n) (fun _ _ _ hi _ hs => step_backed hi hs)
  apply hboth.invariant
  · simp [initial, emptyStore]
  · intro p a p' hcounted ha hs
    exact (step_jobs ha.2 hcounted ha.1 hs).1

theorem run_jobs {n : ℕ} {p p' : StoreProcess} (h : Reaches step CreatesPlanned (initial n) p)
    (h' : Reaches step CreatesPlanned p p') :
    Grown JobLater p.store.trainingJobs p'.store.trainingJobs := by
  induction h' with
  | start => exact .refl JobLater.refl _
  | next hr ha hs ih =>
    have hreached := h.trans hr
    have hstep := step_jobs (run_backed hreached) (run_counted hreached) ha hs
    exact ih.trans (fun _ _ _ hij hjk => hij.trans hjk) hstep.2

/-- The life of the jobs in a run: one active job a scope, counters which go up
to the target, and final states which stay. -/
theorem jobs_lifecycle {n : ℕ} {p : StoreProcess} (h : Reaches step CreatesPlanned (initial n) p) :
    (∀ t m, AtMostOne (isActiveJobOf t m) p.store.trainingJobs) ∧
    (∀ j ∈ p.store.trainingJobs, j.completedRounds ≤ j.targetRounds ∧
      (j.status = .completed ↔ j.completedRounds = j.targetRounds)) ∧
    ∀ p', Reaches step CreatesPlanned p p' →
      Grown JobLater p.store.trainingJobs p'.store.trainingJobs := by
  refine ⟨(run_backed h).store.order.oneActive, ?_, fun p' h' => run_jobs h h'⟩
  intro j hj
  have hcounted := run_counted h j hj
  exact ⟨hcounted.bounded, hcounted.completed⟩

def plannedJob (jobId : String) (targetRounds : ℤ) : PersistedTrainingJobRecord where
  jobId := jobId
  tenantId := "t"
  modelId := "m"
  datasetId := "d"
  targetRounds := targetRounds
  plannedClients := 1
  minClientsPerRound := 1
  assignmentTtlSeconds := 30
  status := .planned
  currentRound := 1
  completedRounds := 0
  activeModelVersion := 0
  createdAt := ""
  activatedAt := ""
  notes := ""

/-- A job of two rounds runs to its end; the next one is superseded. -/
def twoJobs : List StoreAction := [
  .perform (.createTrainingJob (plannedJob "a" 2)) 1,
  .perform (.leaseTrainingAssignment "t" "m" "c" 0 1 60) 2,
  .perform (.advanceTrainingJobRound "t" "m" 1 1) 3,
  .perform (.advanceTrainingJobRound "t" "m" 7 2) 4,
  .perform (.createTrainingJob (plannedJob "b" 1)) 5,
  .perform (.createTrainingJob (plannedJob "c" 1)) 6,
  .load 7]

instance (p : StoreProcess) (a : StoreAction) : Decidable (CreatesPlanned p a) := by
  unfold CreatesPlanned
  split
  · exact inferInstanceAs (Decidable (_ ∧ _))
  · exact .isTrue trivial

theorem jobs_lifecycle_twoJobs : ∃ p, Reaches step CreatesPlanned (initial 10) p ∧
    p.store.trainingJobs.map (·.status) = [.completed, .superseded, .planned] ∧
    ∀ j ∈ p.store.trainingJobs, j.completedRounds ≤ j.targetRounds ∧
      (j.status = .completed ↔ j.completedRounds = j.targetRounds) := by
  have hdata : (execTested step (fun p a => decide (CreatesPlanned p a)) twoJobs (initial 10)).map
      (fun p => p.store.trainingJobs.map (·.status)) =
        some [.completed, .superseded, .planned] := by decide +kernel
  obtain ⟨p, hp, hstatus⟩ := Option.map_eq_some_iff.mp hdata
  have hrun : Reaches step CreatesPlanned (initial 10) p :=
    execTested_reaches _ (fun _ _ => of_decide_eq_true) twoJobs hp
  exact ⟨p, hrun, hstatus, (jobs_lifecycle hrun).2.1⟩

end PqFl.JobLifecycle
