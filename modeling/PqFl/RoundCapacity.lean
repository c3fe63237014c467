import PqFl.LiveLeases

/-!
# The capacity of a round

A job plans for a number of clients per round. A request for a lease counts the
leases of the round which are live; the status report counts those that were
submitted as well. The two counts are compared here over runs of the store.
-/

set_option autoImplicit false

namespace PqFl.RoundCapacity
open PqFl.Identifiers PqFl.Timestamps PqFl.StoreRecords PqFl.StateStore PqFl.ListUpdate
open PqFl.JobLedger PqFl.StoreRuns PqFl.Runs PqFl.JobLifecycle PqFl.LeaseLifecycle PqFl.WorkerSteps
open PqFl.LiveLeases

/-- `PersistedSystemStatus` but for the path of the file. -/
structure PersistedSystemStatus where
  registeredClients : ℕ
  completedRounds : ℤ
  totalSubmissions : ℤ
  activeKeyVersion : ℤ
  activeModels : List PersistedModelRecord
  registeredDatasets : ℕ
  storedModels : ℕ
  activeTrainingJobs : ℕ
  pendingAssignments : ℤ
  leasedAssignments : ℕ
  submittedAssignments : ℕ
  registeredWorkers : ℕ
  busyWorkers : ℕ
  activeWorkerTasks : ℕ
  failedWorkerTasks : ℕ
  deriving DecidableEq, Repr

/-- The assignments of a round which hold one of its places. -/
def isHeld (jobId : String) (round : ℤ) (a : PersistedAssignmentLease) : Bool :=
  a.jobId == jobId && a.roundIndex == round && isUsed a.status

/-- `active_assignments` of a job. -/
def activeAssignments (s : StateStore) (job : PersistedTrainingJobRecord) : ℕ :=
  s.assignments.countP (isHeld job.jobId job.currentRound)

/-- What a job adds to `pending_assignments`. -/
def pendingOf (s : StateStore) (job : PersistedTrainingJobRecord) : ℤ :=
  let roundCapacity := if job.plannedClients > 0 then job.plannedClients else job.minClientsPerRound
  if roundCapacity > 0 then max 0 (roundCapacity - activeAssignments s job) else 0

def getSystemStatus (s : StateStore) : PersistedSystemStatus where
  registeredClients := s.clients.length
  completedRounds := s.completedRounds
  totalSubmissions := s.totalSubmissions
  activeKeyVersion := s.activeKeyVersion
  activeModels := s.models.filter (·.active)
  registeredDatasets := s.datasets.length
  storedModels := s.models.length
  activeTrainingJobs := s.trainingJobs.countP (fun j => isActiveJobStatus j.status)
  pendingAssignments := s.trainingJobs.foldl (fun pending job =>
    if isActiveJobStatus job.status then pending + pendingOf s job else pending) 0
  leasedAssignments := s.assignments.countP (fun a => a.status == .leased)
  submittedAssignments := s.assignments.countP (fun a => a.status == .submitted)
  registeredWorkers := s.workers.length
  busyWorkers := s.workers.countP (fun w => w.status == .busy || w.status == .leased)
  activeWorkerTasks := s.workerTasks.countP (fun task =>
    task.status == .leased || task.status == .running || task.status == .submitted)
  failedWorkerTasks := s.workerTasks.countP (fun task => task.status == .failed)

/-- No active job has more active assignments than clients planned. -/
def WithinCapacity (s : StateStore) : Prop := ∀ j ∈ s.trainingJobs,
  isActiveJobStatus j.status = true → 0 < j.plannedClients →
    (activeAssignments s j : ℤ) ≤ j.plannedClients

theorem WithinCapacity.pendingOf {s : StateStore} (h : WithinCapacity s)
    {j : PersistedTrainingJobRecord} (hj : j ∈ s.trainingJobs)
    (hactive : isActiveJobStatus j.status = true) (hplanned : 0 < j.plannedClients) :
    pendingOf s j = j.plannedClients - activeAssignments s j := by
  have hle := h j hj hactive hplanned
  simp only [RoundCapacity.pendingOf, gt_iff_lt, hplanned, if_true]
  omega

theorem WithinCapacity.pendingAssignments {s : StateStore} (h : WithinCapacity s)
    (hplanned : ∀ j ∈ s.trainingJobs, isActiveJobStatus j.status = true → 0 < j.plannedClients) :
    (getSystemStatus s).pendingAssignments =
      (s.trainingJobs.filter (fun j => isActiveJobStatus j.status)).foldl
        (fun free j => free + (j.plannedClients - activeAssignments s j)) 0 := by
  rw [List.foldl_filter]
  apply List.foldl_ext
  intro free j hj
  by_cases hactive : isActiveJobStatus j.status = true
  · rw [if_pos hactive, if_pos hactive, h.pendingOf hj hactive (hplanned j hj hactive)]
  · rw [if_neg hactive, if_neg hactive]

structure IssuesNew (s : StateStore) (t m c : String) (n : ℤ) (now : ℕ)
    (job : PersistedTrainingJobRecord) : Prop where
  active : getActiveTrainingJob s t m = some job
  unfinished : ¬ (job.targetRounds > 0 ∧ job.completedRounds ≥ job.targetRounds)
  none : (s.assignments.map (lapse (currentTimestamp now))).find?
    (isLiveLeaseOf job c (currentTimestamp now)) = none
  room : (((s.assignments.map (lapse (currentTimestamp now))).filter
    (isLiveLease job.jobId (max 1 job.currentRound) (currentTimestamp now))).length : ℤ) <
      roundCapacity job n

def heldAfterSweep (s : StateStore) (now : ℕ) (jobId : String) (round : ℤ) : ℕ :=
  (s.assignments.map (lapse (currentTimestamp now))).countP (isHeld jobId round)

/-- A new assignment is issued only while the round has a place left, and a job
is created only under an identifier whose rounds are within its plan. -/
def HasRoom (s : StateStore) (now : ℕ) : Operation → Prop
  | .leaseTrainingAssignment t m c _ n _ => ∀ job, IssuesNew s t m c n now job →
      ∀ j ∈ s.trainingJobs, isActiveJobStatus j.status = true → j.jobId = job.jobId →
        0 < j.plannedClients →
        (heldAfterSweep s now job.jobId (max 1 job.currentRound) : ℤ) < j.plannedClients
  | .createTrainingJob record =>
      let saved := (createTrainingJob s record now).value
      0 < saved.plannedClients → ∀ round,
        (s.assignments.countP (isHeld saved.jobId round) : ℤ) ≤ saved.plannedClients
  | _ => True

def Roomy (p : StoreProcess) : StoreAction → Prop
  | .perform op now => HasRoom p.store now op
  | .load _ => True

/-- The form of the invariant which the operations preserve: every round of an
active job is within the plan. -/
def RoundsWithin (jobs : List PersistedTrainingJobRecord) (l : List PersistedAssignmentLease) :
    Prop := ∀ j ∈ jobs, isActiveJobStatus j.status = true → 0 < j.plannedClients →
  ∀ round, (l.countP (isHeld j.jobId round) : ℤ) ≤ j.plannedClients

theorem RoundsWithin.withinCapacity {s : StateStore}
    (h : RoundsWithin s.trainingJobs s.assignments) : WithinCapacity s :=
  fun j hj hactive hplanned => h j hj hactive hplanned j.currentRound

theorem countP_le_of_forall₂ {α : Type*} {p : α → Bool} {R : α → α → Prop}
    (hR : ∀ x y, R x y → p y = true → p x = true) {l l' : List α} (h : List.Forall₂ R l l') :
    l'.countP p ≤ l.countP p := by
  induction h with
  | nil => exact le_rfl
  | @cons x y xs ys hxy _ ih =>
    rw [List.countP_cons, List.countP_cons]
    by_cases hy : p y = true
    · rw [if_pos hy, if_pos (hR x y hxy hy)]
      omega
    · rw [if_neg hy]
      omega

theorem isHeld_of_move {s : StateStore} {now : ℕ} {op : Operation} {x y : PersistedAssignmentLease}
    (h : AssignmentMove s now op x y) {jobId : String} {round : ℤ}
    (hy : isHeld jobId round y = true) : isHeld jobId round x = true := by
  have hterms := h.terms.1
  simp only [isHeld, Bool.and_eq_true, beq_iff_eq, hterms.jobId, hterms.roundIndex] at hy ⊢
  refine ⟨hy.1, ?_⟩
  cases h with
  | same => exact hy.2
  | swept =>
    rcases lapse_cases (currentTimestamp now) x with hsame | ⟨-, -, hexpired⟩
    · rw [hsame] at hy
      exact hy.2
    · rw [hexpired] at hy
      exact absurd hy.2 (by decide)
  | submitted hleased =>
    rw [hleased]
    rfl
  | @closed t m r v job hop hjob =>
    by_cases hof : x.jobId = job.jobId ∧ x.roundIndex = r
    · have hused := hy.2
      rw [closeAssignment, if_pos hof] at hused
      cases hstatus : x.status with
      | leased => rfl
      | submitted => rfl
      | aggregated => rfl
      | missed => simp [hstatus, isUsed] at hused
      | expired => simp [hstatus, isUsed] at hused
    · rw [closeAssignment, if_neg hof] at hy
      exact hy.2

theorem countP_lapse_le (l : List PersistedAssignmentLease) (now : String) (jobId : String)
    (round : ℤ) : (l.map (lapse now)).countP (isHeld jobId round) ≤
      l.countP (isHeld jobId round) := by
  apply countP_le_of_forall₂ _ (forall₂_map (R := fun x y => y = lapse now x) _ (fun _ => rfl) l)
  rintro x y rfl hy
  rcases lapse_cases now x with hsame | ⟨-, -, hexpired⟩
  · rw [hsame] at hy
    exact hy
  · simp [isHeld, hexpired, isUsed] at hy

/-- The jobs which are active after an operation were so before with the same
plan, or are new. -/
theorem perform_plans {s : StateStore} {now : ℕ} {op : Operation} {j : PersistedTrainingJobRecord}
    (hj : j ∈ (perform s now op).store.trainingJobs) (hactive : isActiveJobStatus j.status = true) :
    (∃ i ∈ s.trainingJobs, isActiveJobStatus i.status = true ∧ i.jobId = j.jobId ∧
      i.plannedClients = j.plannedClients) ∨
    ∃ record, op = .createTrainingJob record ∧ j = (createTrainingJob s record now).value := by
  by_cases hcreate : ∃ record, op = .createTrainingJob record
  · obtain ⟨record, rfl⟩ := hcreate
    rcases create_cases hj hactive with hnew | ⟨hold, -⟩
    · exact .inr ⟨record, rfl, hnew⟩
    · exact .inl ⟨j, hold, hactive, rfl, rfl⟩
  · left
    have hstep := perform_jobs s now op
    generalize (perform s now op).store.trainingJobs = jobs at hj hstep
    cases hstep with
    | turned h =>
      obtain ⟨i, hi, hturned⟩ := forall₂_of_mem h hj
      cases hturned with
      | same => exact ⟨j, hi, hactive, rfl, rfl⟩
      | running hbefore =>
        refine ⟨i, hi, hbefore, (runningJob_fields _ i).1.symm, ?_⟩
        unfold runningJob
        split
        · rfl
        · rfl
      | atTarget hbefore htarget => cases hactive
    | created => exact absurd ⟨_, rfl⟩ hcreate
    | advanced hbefore h =>
      obtain ⟨i, hi, rfl | ⟨rfl, rfl⟩⟩ := forall₂_of_mem h hj
      · exact ⟨j, hi, hactive, rfl, rfl⟩
      · exact ⟨i, hi, hbefore, rfl, rfl⟩

theorem lease_roundsWithin {s : StateStore} {now : ℕ} {t m c : String} {v n ttl : ℤ}
    (h : RoundsWithin s.trainingJobs s.assignments)
    (hroom : HasRoom s now (.leaseTrainingAssignment t m c v n ttl)) :
    RoundsWithin (leaseTrainingAssignment s t m c v n ttl now).store.trainingJobs
      (leaseTrainingAssignment s t m c v n ttl now).store.assignments := by
  intro j hj hactive hplanned round
  have hplans := @perform_plans s now (.leaseTrainingAssignment t m c v n ttl) j hj hactive
  obtain ⟨i, hi, hbefore, hid, hplan⟩ | ⟨record, hop, -⟩ := hplans
  · rw [← hplan] at hplanned ⊢
    rw [← hid]
    have hle := h i hi hbefore hplanned round
    have hswept := countP_lapse_le s.assignments (currentTimestamp now) i.jobId round
    have houtcome := lease_outcome s t m c v n ttl now
    generalize (leaseTrainingAssignment s t m c v n ttl now).value = value at houtcome
    generalize (leaseTrainingAssignment s t m c v n ttl now).store.assignments = l at houtcome ⊢
    cases houtcome with
    | refused hwhy => omega
    | again hjob hopen hlive => omega
    | @fresh job dataset hjob hopen hnone hcount =>
      rw [List.countP_append, List.countP_singleton]
      by_cases hnew : isHeld i.jobId round (newLease job t m c v ttl now) = true
      · simp only [isHeld, Bool.and_eq_true, beq_iff_eq] at hnew
        obtain ⟨⟨hjobId, hround⟩, -⟩ := hnew
        have hplace := hroom job ⟨hjob, hopen, hnone, hcount⟩ i hi hbefore hjobId.symm hplanned
        have hsame : heldAfterSweep s now job.jobId (max 1 job.currentRound) =
            (s.assignments.map (lapse (currentTimestamp now))).countP (isHeld i.jobId round) := by
          rw [← hjobId, ← hround]
          rfl
        rw [hsame] at hplace
        split
        · omega
        · omega
      · rw [if_neg hnew]
        omega
  · cases hop

theorem perform_roundsWithin {s : StateStore} {now : ℕ} {op : Operation}
    (h : RoundsWithin s.trainingJobs s.assignments) (hroom : HasRoom s now op) :
    RoundsWithin (perform s now op).store.trainingJobs (perform s now op).store.assignments := by
  by_cases hlease : ∃ t m c v n ttl, op = .leaseTrainingAssignment t m c v n ttl
  · obtain ⟨t, m, c, v, n, ttl, rfl⟩ := hlease
    exact lease_roundsWithin h hroom
  · have hother : ∀ t m c v n ttl, op ≠ .leaseTrainingAssignment t m c v n ttl :=
      fun t m c v n ttl heq => hlease ⟨t, m, c, v, n, ttl, heq⟩
    have hmoves : List.Forall₂ (AssignmentMove s now op) s.assignments
        (perform s now op).store.assignments := perform_moves_only hother
    intro j hj hactive hplanned round
    have hcount := countP_le_of_forall₂ (p := isHeld j.jobId round)
      (fun _ _ hmove hy => isHeld_of_move hmove hy) hmoves
    obtain ⟨i, hi, hbefore, hid, hplan⟩ | ⟨record, rfl, rfl⟩ := perform_plans hj hactive
    · rw [← hplan] at hplanned ⊢
      have hle := h i hi hbefore hplanned round
      rw [hid] at hle
      omega
    · have hle := hroom hplanned round
      omega

structure AllWithin (p : StoreProcess) : Prop where
  backed : Backed p
  store : RoundsWithin p.store.trainingJobs p.store.assignments
  disk : RoundsWithin p.disk.trainingJobs p.disk.assignments

theorem initial_allWithin (n : ℕ) : AllWithin (initial n) where
  backed := initial_backed n
  store := fun j hj => by cases hj
  disk := fun j hj => by cases hj

theorem step_allWithin {p p' : StoreProcess} {a : StoreAction} (h : AllWithin p) (ha : Roomy p a)
    (hs : step p a = some p') : AllWithin p' := by
  have hbacked := step_backed h.backed hs
  cases a with
  | perform op now =>
    obtain rfl := Option.some.inj hs
    have hstore := perform_roundsWithin h.store ha
    have hdisk := step_onDisk (I := fun s => RoundsWithin s.trainingJobs s.assignments) hs hstore
      h.disk
    exact ⟨hbacked, hstore, hdisk⟩
  | load now =>
    obtain rfl := Option.some.inj hs
    obtain ⟨-, -, -, hjobs, -, -, hleases⟩ := load_fields h.backed.disk now
    have hloaded : RoundsWithin (StateStore.load p.disk now).store.trainingJobs
        (StateStore.load p.disk now).store.assignments := by
      rw [hjobs, hleases]
      intro j hj hactive hplanned round
      have hle := h.disk j hj hactive hplanned round
      have hswept := countP_lapse_le p.disk.assignments (currentTimestamp now) j.jobId round
      omega
    exact ⟨hbacked, hloaded, hloaded⟩

theorem run_allWithin {n : ℕ} {p : StoreProcess} (h : Reaches step Roomy (initial n) p) :
    AllWithin p :=
  h.invariant (initial_allWithin n) (fun _ _ _ hi ha hs => step_allWithin hi ha hs)

/-- While a new assignment takes a place that is left, every active job stays
within its capacity; and a request keeps the round of its job within it exactly
when it does so. -/
theorem round_capacity (auditRetention : ℕ) (p : StoreProcess)
    (h : Reaches step Roomy (initial auditRetention) p) :
    WithinCapacity p.store ∧ ∀ t m c v n ttl now job,
      getActiveTrainingJob p.store t m = some job → 0 < job.plannedClients →
      (((leaseTrainingAssignment p.store t m c v n ttl now).store.assignments.countP
          (isHeld job.jobId (max 1 job.currentRound)) : ℤ) ≤ job.plannedClients ↔
        (IssuesNew p.store t m c n now job →
          (heldAfterSweep p.store now job.jobId (max 1 job.currentRound) : ℤ) <
            job.plannedClients)) := by
  have hall := run_allWithin h
  refine ⟨hall.store.withinCapacity, ?_⟩
  intro t m c v n ttl now job hjob hplanned
  obtain ⟨hmem, -, -, hactive⟩ := getActive_mem hjob
  have hle := hall.store job hmem hactive hplanned (max 1 job.currentRound)
  have hswept := countP_lapse_le p.store.assignments (currentTimestamp now) job.jobId
    (max 1 job.currentRound)
  have houtcome := lease_outcome p.store t m c v n ttl now
  generalize (leaseTrainingAssignment p.store t m c v n ttl now).value = value at houtcome
  generalize (leaseTrainingAssignment p.store t m c v n ttl now).store.assignments = l at houtcome ⊢
  have hthis : ∀ {j}, getActiveTrainingJob p.store t m = some j → j = job := by
    intro j hj
    exact Option.some.inj (hj.symm.trans hjob)
  cases houtcome with
  | refused hwhy =>
    constructor
    · intro _ hnew
      obtain ⟨-, hfull⟩ := hwhy job hjob hnew.unfinished
      have hroom := hnew.room
      omega
    · intro _
      omega
  | again hjob' hopen hlive =>
    rw [hthis hjob'] at hlive
    constructor
    · intro _ hnew
      rw [hnew.none] at hlive
      cases hlive
    · intro _
      omega
  | fresh hjob' hopen hnone hroom =>
    rw [hthis hjob'] at hopen hnone hroom ⊢
    have hheld : isHeld job.jobId (max 1 job.currentRound) (newLease job t m c v ttl now) = true := by
      simp [isHeld, newLease, isUsed]
    rw [List.countP_append, List.countP_singleton, if_pos hheld]
    unfold heldAfterSweep
    constructor
    · intro hafter _
      omega
    · intro hplace
      have hbefore := hplace ⟨hjob, hopen, hnone, hroom⟩
      omega

/-- In these runs the pending assignments of the report are the places which are left. -/
theorem run_pendingAssignments {auditRetention : ℕ} {p : StoreProcess}
    (h : Reaches step Roomy (initial auditRetention) p)
    (hplanned : ∀ j ∈ p.store.trainingJobs, isActiveJobStatus j.status = true →
      0 < j.plannedClients) :
    (getSystemStatus p.store).pendingAssignments =
      (p.store.trainingJobs.filter (fun j => isActiveJobStatus j.status)).foldl
        (fun free j => free + (j.plannedClients - activeAssignments p.store j)) 0 :=
  (run_allWithin h).store.withinCapacity.pendingAssignments hplanned

/-- A job for this many clients. One of them leases and submits, then another one leases. -/
def clientsOf (plannedClients : ℤ) : List StoreAction := [
  .perform (.createTrainingJob ⟨"j", "t", "m", "d", 3, plannedClients, 1, 30, .planned, 1, 0, 0, "",
    "", ""⟩) 1,
  .perform (.leaseTrainingAssignment "t" "m" "a" 0 1 60) 2,
  .perform (.acceptTrainingAssignmentSubmission "t" "m" "a" "j"
    "j::round:1::client:a::1970-01-01T00:00:00.002Z" 1 0) 3,
  .perform (.leaseTrainingAssignment "t" "m" "b" 0 1 60) 4]

def findsRoom (p : StoreProcess) : StoreAction → Bool
  | .perform (.createTrainingJob _) _ => p.store.assignments.isEmpty
  | .perform (.leaseTrainingAssignment t m _ _ _ _) now =>
    (getActiveTrainingJob p.store t m).all (fun job => p.store.trainingJobs.all (fun j =>
      (heldAfterSweep p.store now job.jobId (max 1 job.currentRound) : ℤ) < j.plannedClients))
  | _ => true

theorem roomy_of_findsRoom (p : StoreProcess) (a : StoreAction) (h : findsRoom p a = true) :
    Roomy p a := by
  cases a with
  | load now => trivial
  | perform op now =>
    cases op with
    | createTrainingJob record =>
      have hnone : p.store.assignments = [] := List.isEmpty_iff.mp h
      intro hplanned round
      rw [hnone]
      exact hplanned.le
    | leaseTrainingAssignment t m c v n ttl =>
      intro job hnew j hj _ _ _
      rw [findsRoom, hnew.active, Option.all_some, List.all_eq_true] at h
      exact of_decide_eq_true (h j hj)
    | _ => trivial

/-- A submission and a lease hold both places of the round. -/
theorem round_capacity_twoClients : ∃ p, Reaches step Roomy (initial 10) p ∧
    p.store.assignments.map (·.status) = [.submitted, .leased] ∧ WithinCapacity p.store ∧
    (getSystemStatus p.store).pendingAssignments = 0 := by
  have htest : (execTested step findsRoom (clientsOf 2) (initial 10)).any (fun p =>
      p.store.assignments.map (·.status) == [.submitted, .leased] &&
      (getSystemStatus p.store).pendingAssignments == 0) = true := by decide +kernel
  rw [Option.any_eq_true] at htest
  obtain ⟨p, hp, htest⟩ := htest
  simp only [Bool.and_eq_true, beq_iff_eq] at htest
  have hreaches := execTested_reaches findsRoom roomy_of_findsRoom _ hp
  exact ⟨p, hreaches, htest.1, (round_capacity 10 p hreaches).1, htest.2⟩

/-- One client is planned for and has submitted; another one gets a lease. -/
theorem submitted_place_leased : ∃ p j, Reaches step Timely (initial 10) p ∧
    j ∈ p.store.trainingJobs ∧ isActiveJobStatus j.status = true ∧ j.plannedClients = 1 ∧
    p.store.assignments.map (fun a => (a.jobId, a.roundIndex, a.status)) =
      [(j.jobId, j.currentRound, .submitted), (j.jobId, j.currentRound, .leased)] ∧
    (∀ a ∈ p.store.assignments, currentTimestamp p.clock < a.expiresAt) ∧
    activeAssignments p.store j = 2 ∧ ¬ WithinCapacity p.store := by
  have htest : (execTested step (fun p a => decide (Timely p a)) (clientsOf 1)
      (initial 10)).any (fun p =>
        p.store.trainingJobs.any (fun j => isActiveJobStatus j.status && j.plannedClients == 1 &&
          p.store.assignments.map (fun a => (a.jobId, a.roundIndex, a.status)) ==
            [(j.jobId, j.currentRound, .submitted), (j.jobId, j.currentRound, .leased)] &&
          p.store.assignments.all (fun a => currentTimestamp p.clock < a.expiresAt) &&
          activeAssignments p.store j == 2)) = true := by
    decide +kernel
  rw [Option.any_eq_true] at htest
  obtain ⟨p, hp, htest⟩ := htest
  obtain ⟨j, hj, hmatch⟩ := List.any_eq_true.mp htest
  simp only [Bool.and_eq_true, beq_iff_eq, List.all_eq_true, decide_eq_true_eq] at hmatch
  obtain ⟨⟨⟨⟨hactive, hplanned⟩, hassignments⟩, hlive⟩, hcount⟩ := hmatch
  have hreaches := execTested_reaches _ (fun _ _ => of_decide_eq_true) _ hp
  refine ⟨p, j, hreaches, hj, hactive, hplanned, hassignments, hlive, hcount, ?_⟩
  intro hwithin
  have hle := hwithin j hj hactive (by omega)
  omega

end PqFl.RoundCapacity
