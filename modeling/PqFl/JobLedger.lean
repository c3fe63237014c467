import Mathlib.Data.List.Nodup
import PqFl.StateStore

/-!
# The ledger of jobs and leases

What the operations of the store do to training jobs and assignments, and the
two invariants which are kept by it. `Orderly` holds of every store that the
methods can produce. `Ledger` also ties leases and round counters to their
jobs; creating a job needs a fresh identifier for it, and advancing a job needs
the round which the job is in.
-/

set_option autoImplicit false

namespace PqFl.JobLedger
open PqFl.Identifiers PqFl.Timestamps PqFl.StoreRecords PqFl.StateStore PqFl.ListUpdate

/-- The terms of an assignment never change, and only leased ones change status. -/
structure LeaseKept (a a' : PersistedAssignmentLease) : Prop where
  assignmentId : a'.assignmentId = a.assignmentId
  jobId : a'.jobId = a.jobId
  tenantId : a'.tenantId = a.tenantId
  modelId : a'.modelId = a.modelId
  clientId : a'.clientId = a.clientId
  roundIndex : a'.roundIndex = a.roundIndex
  baseModelVersion : a'.baseModelVersion = a.baseModelVersion
  leased : a'.status = .leased → a.status = .leased

theorem LeaseKept.refl (a : PersistedAssignmentLease) : LeaseKept a a :=
  ⟨rfl, rfl, rfl, rfl, rfl, rfl, rfl, id⟩

theorem LeaseKept.trans {a b c : PersistedAssignmentLease} (h : LeaseKept a b)
    (h' : LeaseKept b c) : LeaseKept a c :=
  ⟨h'.1.trans h.1, h'.2.trans h.2, h'.3.trans h.3, h'.4.trans h.4, h'.5.trans h.5, h'.6.trans h.6,
    h'.7.trans h.7, fun hc => h.8 (h'.8 hc)⟩

theorem leasesKept_trans {l₁ l₂ l₃ : List PersistedAssignmentLease}
    (h : List.Forall₂ LeaseKept l₁ l₂) (h' : List.Forall₂ LeaseKept l₂ l₃) :
    List.Forall₂ LeaseKept l₁ l₃ := forall₂_trans (fun _ _ _ hab hbc => hab.trans hbc) h h'

/-- Between two advances a job keeps its counters, and it only stops being
active when it is superseded or has reached its target. -/
structure JobKept (j j' : PersistedTrainingJobRecord) : Prop where
  jobId : j'.jobId = j.jobId
  tenantId : j'.tenantId = j.tenantId
  modelId : j'.modelId = j.modelId
  targetRounds : j'.targetRounds = j.targetRounds
  currentRound : j'.currentRound = j.currentRound
  completedRounds : j'.completedRounds = j.completedRounds
  active : isActiveJobStatus j'.status = true → isActiveJobStatus j.status = true
  stays : isActiveJobStatus j.status = true → isActiveJobStatus j'.status = true ∨
    (j.targetRounds > 0 ∧ j.completedRounds ≥ j.targetRounds)

theorem JobKept.refl (j : PersistedTrainingJobRecord) : JobKept j j :=
  ⟨rfl, rfl, rfl, rfl, rfl, rfl, id, .inl⟩

theorem JobKept.isActiveJobOf {j j' : PersistedTrainingJobRecord} (h : JobKept j j') {t m : String}
    (hj : isActiveJobOf t m j' = true) : isActiveJobOf t m j = true := by
  simp only [StateStore.isActiveJobOf, Bool.and_eq_true, beq_iff_eq, h.tenantId, h.modelId] at hj ⊢
  exact ⟨hj.1, h.active hj.2⟩

theorem isActiveJobOf_iff {t m : String} {j : PersistedTrainingJobRecord} :
    isActiveJobOf t m j = true ↔
      j.tenantId = t ∧ j.modelId = m ∧ isActiveJobStatus j.status = true := by
  simp [StateStore.isActiveJobOf, and_assoc]

/-- What an operation other than creation and advance does to jobs and leases. -/
inductive Move (s s' : StateStore) : Prop
  | kept (hjobs : List.Forall₂ JobKept s.trainingJobs s'.trainingJobs)
      (hleases : List.Forall₂ LeaseKept s.assignments s'.assignments)
  | leased {mid : List PersistedAssignmentLease} {lease : PersistedAssignmentLease}
      {job : PersistedTrainingJobRecord}
      (hjobs : List.Forall₂ JobKept s.trainingJobs s'.trainingJobs)
      (hmid : List.Forall₂ LeaseKept s.assignments mid)
      (hleases : s'.assignments = mid ++ [lease])
      (hjob : job ∈ s.trainingJobs) (hactive : isActiveJobStatus job.status = true)
      (hid : lease.jobId = job.jobId) (hround : lease.roundIndex = max 1 job.currentRound)
      (hnormal : normalizeTenant lease.tenantId = lease.tenantId ∧
        normalizeModel lease.modelId = lease.modelId)

theorem jobsKept_refl (l : List PersistedTrainingJobRecord) : List.Forall₂ JobKept l l :=
  List.forall₂_same.mpr fun j _ => .refl j

theorem leasesKept_refl (l : List PersistedAssignmentLease) : List.Forall₂ LeaseKept l l :=
  List.forall₂_same.mpr fun a _ => .refl a

theorem Move.of_jobRecords {s s' : StateStore} (h : jobRecords s' = jobRecords s) : Move s s' := by
  obtain ⟨hjobs, hleases⟩ := Prod.mk.inj h
  refine .kept ?_ ?_
  · rw [hjobs]; exact jobsKept_refl _
  · rw [hleases]; exact leasesKept_refl _

theorem Move.of_same {s s' s'' : StateStore} (h : Move s s')
    (hjobs : s''.trainingJobs = s'.trainingJobs) (hleases : s''.assignments = s'.assignments) :
    Move s s'' := by
  cases h with
  | kept hj hl => exact .kept (by rw [hjobs]; exact hj) (by rw [hleases]; exact hl)
  | leased hj hm hl hjob hactive hid hround hnormal =>
    exact .leased (by rw [hjobs]; exact hj) hm (hleases.trans hl) hjob hactive hid hround hnormal

theorem Move.jobs {s s' : StateStore} (h : Move s s') :
    List.Forall₂ JobKept s.trainingJobs s'.trainingJobs := by
  cases h with
  | kept hjobs _ => exact hjobs
  | leased hjobs _ _ _ _ _ _ _ => exact hjobs

theorem lapse_kept (now : String) (a : PersistedAssignmentLease) : LeaseKept a (lapse now a) := by
  unfold lapse
  split
  · exact ⟨rfl, rfl, rfl, rfl, rfl, rfl, rfl, fun h => by cases h⟩
  · exact .refl a

theorem lapse_leased {now : String} {a : PersistedAssignmentLease} :
    (lapse now a).status = .leased ↔ a.status = .leased ∧ hasLapsed now a = false := by
  unfold lapse
  by_cases h : hasLapsed now a = true
  · rw [if_pos h, h]
    simp
  · rw [if_neg h]
    simp [h]

theorem expire_kept (s : StateStore) (now : String) :
    List.Forall₂ LeaseKept s.assignments (expireAssignmentsLocked s now).assignments := by
  rw [(expireAssignmentsLocked_frame s now).2.1]
  exact forall₂_map _ (lapse_kept now) _

theorem getActive_expire (s : StateStore) (now t m : String) :
    getActiveTrainingJob (expireAssignmentsLocked s now) t m = getActiveTrainingJob s t m := by
  rw [getActiveTrainingJob, getActiveTrainingJob, (expireAssignmentsLocked_frame s now).1]

theorem updateAssignment_kept (s : StateStore) (id : String)
    (f : PersistedAssignmentLease → PersistedAssignmentLease) (hf : ∀ a, LeaseKept a (f a)) :
    List.Forall₂ LeaseKept s.assignments (updateAssignment s id f).assignments := by
  refine (updateFirst_touched _ f s.assignments).imp ?_
  rintro a b (rfl | ⟨-, rfl⟩)
  · exact .refl b
  · exact hf a

theorem expireAtSubmission_kept (now : String) (a : PersistedAssignmentLease) :
    LeaseKept a (expireAtSubmission now a) :=
  ⟨rfl, rfl, rfl, rfl, rfl, rfl, rfl, fun h => by cases h⟩

theorem validate_move (s : StateStore) (t m c jobId id : String) (r v : ℤ) (now : ℕ) :
    Move s (validateTrainingAssignmentSubmission s t m c jobId id r v now).store := by
  have hexpire := expire_kept s (currentTimestamp now)
  have hjobs := (expireAssignmentsLocked_frame s (currentTimestamp now)).1
  unfold validateTrainingAssignmentSubmission
  dsimp only
  split
  · exact .kept (by rw [hjobs]; exact jobsKept_refl _) hexpire
  · exact .kept (by rw [hjobs]; exact jobsKept_refl _) hexpire
  · refine .kept (by rw [updateAssignment, hjobs]; exact jobsKept_refl _) (leasesKept_trans hexpire ?_)
    exact updateAssignment_kept _ _ _ (expireAtSubmission_kept _)
  · exact .kept (by rw [hjobs]; exact jobsKept_refl _) hexpire

theorem accept_move (s : StateStore) (t m c jobId id : String) (r v : ℤ) (now : ℕ) :
    Move s (acceptTrainingAssignmentSubmission s t m c jobId id r v now).store := by
  have hexpire := expire_kept s (currentTimestamp now)
  have hjobs := (expireAssignmentsLocked_frame s (currentTimestamp now)).1
  unfold acceptTrainingAssignmentSubmission
  dsimp only
  split
  · exact .kept (by rw [hjobs]; exact jobsKept_refl _) hexpire
  · exact .kept (by rw [hjobs]; exact jobsKept_refl _) hexpire
  · refine .kept (by rw [updateAssignment, hjobs]; exact jobsKept_refl _) (leasesKept_trans hexpire ?_)
    exact updateAssignment_kept _ _ _ (expireAtSubmission_kept _)
  · refine .kept ?_ (leasesKept_trans hexpire ?_)
    · rw [(pushAuditEvent_frame _ _).1, updateAssignment, hjobs]
      exact jobsKept_refl _
    · rw [(pushAuditEvent_frame _ _).2.1]
      refine updateAssignment_kept _ id _ (fun a => ?_)
      exact ⟨rfl, rfl, rfl, rfl, rfl, rfl, rfl, fun h => by cases h⟩

theorem runningJob_kept (now : String) (j : PersistedTrainingJobRecord) :
    JobKept j (runningJob now j) := by
  unfold runningJob
  split
  · rename_i hp
    exact ⟨rfl, rfl, rfl, rfl, rfl, rfl, fun _ => by rw [hp]; rfl, fun _ => .inl rfl⟩
  · exact .refl j

theorem updateActive_kept {s : StateStore} {t m : String} {job : PersistedTrainingJobRecord}
    (hjob : getActiveTrainingJob s t m = some job)
    (f : PersistedTrainingJobRecord → PersistedTrainingJobRecord) (hf : JobKept job (f job)) :
    List.Forall₂ JobKept s.trainingJobs (updateActiveTrainingJob s t m f).trainingJobs :=
  updateLast_forall₂ .refl hjob hf

theorem completedJob_kept (j : PersistedTrainingJobRecord)
    (hactive : isActiveJobStatus j.status = true)
    (htarget : j.targetRounds > 0 ∧ j.completedRounds ≥ j.targetRounds) :
    JobKept j { j with status := .completed } :=
  ⟨rfl, rfl, rfl, rfl, rfl, rfl, fun _ => hactive, fun _ => .inr htarget⟩

theorem getActive_mem {s : StateStore} {t m : String} {job : PersistedTrainingJobRecord}
    (h : getActiveTrainingJob s t m = some job) :
    job ∈ s.trainingJobs ∧ job.tenantId = normalizeTenant t ∧ job.modelId = normalizeModel m ∧
      isActiveJobStatus job.status = true := by
  obtain ⟨hmem, hof⟩ := findLast_mem h
  exact ⟨hmem, isActiveJobOf_iff.mp hof⟩

theorem lease_move (s : StateStore) (t m c : String) (v n ttl : ℤ) (now : ℕ) :
    Move s (leaseTrainingAssignment s t m c v n ttl now).store := by
  have hexpire := expire_kept s (currentTimestamp now)
  have hjobs := (expireAssignmentsLocked_frame s (currentTimestamp now)).1
  unfold leaseTrainingAssignment
  dsimp only
  generalize expireAssignmentsLocked s (currentTimestamp now) = swept at *
  split
  · exact .kept (by rw [hjobs]; exact jobsKept_refl _) hexpire
  rename_i job hjob
  obtain ⟨hmem, -, -, hactive⟩ := getActive_mem hjob
  rw [hjobs] at hmem
  split
  · rename_i htarget
    refine .kept ?_ hexpire
    rw [← hjobs]
    exact updateActive_kept hjob _ (completedJob_kept job hactive htarget)
  · have hkept := runningJob_kept (currentTimestamp now) job
    have hmoved := updateActive_kept hjob (fun _ => runningJob (currentTimestamp now) job) hkept
    rw [hjobs] at hmoved
    rcases grantLease_cases (updateActiveTrainingJob swept t m fun _ =>
        runningJob (currentTimestamp now) job) (runningJob (currentTimestamp now) job) t m c v n ttl
        now with h | ⟨event, h⟩
    · rw [h]
      exact .kept hmoved hexpire
    · rw [h]
      refine .leased (by rw [(pushAuditEvent_frame _ _).1]; exact hmoved) hexpire
        (pushAuditEvent_frame _ _).2.1 hmem hactive hkept.jobId ?_ ?_
      · show max 1 (runningJob (currentTimestamp now) job).currentRound = _
        rw [hkept.currentRound]
      · exact ⟨normalizeTenant_idem t, normalizeModel_idem m⟩

/-- Scopes are normalised, a scope has at most one active job, and every
assignment belongs to a job. -/
structure Orderly (s : StateStore) : Prop where
  jobsNormal : ∀ j ∈ s.trainingJobs, normalizeTenant j.tenantId = j.tenantId ∧
    normalizeModel j.modelId = j.modelId
  leasesNormal : ∀ a ∈ s.assignments, normalizeTenant a.tenantId = a.tenantId ∧
    normalizeModel a.modelId = a.modelId
  oneActive : ∀ t m, AtMostOne (isActiveJobOf t m) s.trainingJobs
  owned : ∀ a ∈ s.assignments, ∃ j ∈ s.trainingJobs, j.jobId = a.jobId

theorem orderly_empty (n : ℕ) : Orderly (emptyStore n) where
  jobsNormal := by simp [emptyStore]
  leasesNormal := by simp [emptyStore]
  oneActive _ _ := .nil
  owned := by simp [emptyStore]

theorem Orderly.active_unique {s : StateStore} (h : Orderly s) {t m : String}
    {j : PersistedTrainingJobRecord} (hj : j ∈ s.trainingJobs)
    (hof : isActiveJobOf (normalizeTenant t) (normalizeModel m) j = true) :
    getActiveTrainingJob s t m = some j :=
  (h.oneActive _ _).findLast_eq hj hof

/-- Who a job is never changes, and a job that ended does not come back. -/
structure JobSame (j j' : PersistedTrainingJobRecord) : Prop where
  jobId : j'.jobId = j.jobId
  tenantId : j'.tenantId = j.tenantId
  modelId : j'.modelId = j.modelId
  active : isActiveJobStatus j'.status = true → isActiveJobStatus j.status = true

theorem JobKept.same {j j' : PersistedTrainingJobRecord} (h : JobKept j j') : JobSame j j' :=
  ⟨h.jobId, h.tenantId, h.modelId, h.active⟩

theorem JobSame.isActiveJobOf {j j' : PersistedTrainingJobRecord} (h : JobSame j j')
    {t m : String} (hj : isActiveJobOf t m j' = true) : isActiveJobOf t m j = true := by
  rw [isActiveJobOf_iff, h.tenantId, h.modelId] at hj
  exact isActiveJobOf_iff.mpr ⟨hj.1, hj.2.1, h.active hj.2.2⟩

theorem Orderly.same {s s' : StateStore} (h : Orderly s)
    (hjobs : List.Forall₂ JobSame s.trainingJobs s'.trainingJobs)
    (hleases : List.Forall₂ LeaseKept s.assignments s'.assignments) : Orderly s' where
  jobsNormal := by
    intro j' hj'
    obtain ⟨j, hj, hsame⟩ := forall₂_of_mem hjobs hj'
    rw [hsame.tenantId, hsame.modelId]
    exact h.jobsNormal j hj
  leasesNormal := by
    intro a' ha'
    obtain ⟨a, ha, hkept⟩ := forall₂_of_mem hleases ha'
    rw [hkept.tenantId, hkept.modelId]
    exact h.leasesNormal a ha
  oneActive t m := AtMostOne.of_forall₂ (fun _ _ hsame => hsame.isActiveJobOf) hjobs (h.oneActive t m)
  owned := by
    intro a' ha'
    obtain ⟨a, ha, hkept⟩ := forall₂_of_mem hleases ha'
    obtain ⟨j, hj, hid⟩ := h.owned a ha
    obtain ⟨j', hj', hsame⟩ := forall₂_of_mem_left hjobs hj
    exact ⟨j', hj', by rw [hsame.jobId, hid, hkept.jobId]⟩

theorem Orderly.addLease {s s' : StateStore} (h : Orderly s) {lease : PersistedAssignmentLease}
    (hjobs : s'.trainingJobs = s.trainingJobs) (hleases : s'.assignments = s.assignments ++ [lease])
    (hnormal : normalizeTenant lease.tenantId = lease.tenantId ∧
      normalizeModel lease.modelId = lease.modelId)
    (howned : ∃ j ∈ s.trainingJobs, j.jobId = lease.jobId) : Orderly s' where
  jobsNormal := by rw [hjobs]; exact h.jobsNormal
  leasesNormal := by
    intro a ha
    rw [hleases] at ha
    rcases List.mem_append.mp ha with ha | ha
    · exact h.leasesNormal a ha
    · obtain rfl := List.mem_singleton.mp ha
      exact hnormal
  oneActive := by rw [hjobs]; exact h.oneActive
  owned := by
    intro a ha
    rw [hleases] at ha
    rw [hjobs]
    rcases List.mem_append.mp ha with ha | ha
    · exact h.owned a ha
    · obtain rfl := List.mem_singleton.mp ha
      exact howned

theorem jobsSame_of_kept {l l' : List PersistedTrainingJobRecord}
    (h : List.Forall₂ JobKept l l') : List.Forall₂ JobSame l l' := h.imp fun _ _ hk => hk.same

theorem Orderly.move {s s' : StateStore} (h : Orderly s) (hm : Move s s') : Orderly s' := by
  cases hm with
  | kept hjobs hleases => exact h.same (jobsSame_of_kept hjobs) hleases
  | @leased mid lease job hjobs hmid hleases hjob _ hid _ hnormal =>
    have hswept : Orderly { s' with assignments := mid } := h.same (jobsSame_of_kept hjobs) hmid
    obtain ⟨job', hjob', hkept⟩ := forall₂_of_mem_left hjobs hjob
    exact hswept.addLease rfl hleases hnormal ⟨job', hjob', hkept.jobId.trans hid.symm⟩

def supersede (t m : String) (j : PersistedTrainingJobRecord) : PersistedTrainingJobRecord :=
  if isActiveJobOf t m j then { j with status := .superseded } else j

theorem supersede_same (t m : String) (j : PersistedTrainingJobRecord) :
    JobSame j (supersede t m j) := by
  unfold supersede
  split
  · exact ⟨rfl, rfl, rfl, fun h => by cases h⟩
  · exact ⟨rfl, rfl, rfl, id⟩

theorem supersede_counters (t m : String) (j : PersistedTrainingJobRecord) :
    (supersede t m j).completedRounds = j.completedRounds ∧
      (supersede t m j).currentRound = j.currentRound := by
  unfold supersede
  split <;> exact ⟨rfl, rfl⟩

theorem supersede_not_active (t m : String) (j : PersistedTrainingJobRecord) :
    isActiveJobOf t m (supersede t m j) = false := by
  unfold supersede
  split
  · simp [StateStore.isActiveJobOf, isActiveJobStatus]
  · simp_all

theorem create_jobs (s : StateStore) (record : PersistedTrainingJobRecord) (now : ℕ) :
    (createTrainingJob s record now).store.trainingJobs =
      s.trainingJobs.map (supersede (normalizeTenant record.tenantId)
        (normalizeModel record.modelId)) ++ [(createTrainingJob s record now).value] ∧
    (createTrainingJob s record now).store.assignments = s.assignments := by
  constructor
  · exact (pushAuditEvent_frame _ _).1
  · exact (pushAuditEvent_frame _ _).2.1

theorem create_cases {s : StateStore} {record : PersistedTrainingJobRecord} {now : ℕ}
    {j : PersistedTrainingJobRecord}
    (hj : j ∈ (createTrainingJob s record now).store.trainingJobs)
    (hactive : isActiveJobStatus j.status = true) :
    j = (createTrainingJob s record now).value ∨ (j ∈ s.trainingJobs ∧
      isActiveJobOf (normalizeTenant record.tenantId) (normalizeModel record.modelId) j = false) := by
  rw [(create_jobs s record now).1] at hj
  rcases List.mem_append.mp hj with hj | hj
  · obtain ⟨i, hi, rfl⟩ := List.mem_map.mp hj
    unfold supersede at hactive ⊢
    split at hactive
    · cases hactive
    · rename_i hof
      rw [if_neg hof]
      exact .inr ⟨hi, by simpa using hof⟩
  · exact .inl (List.mem_singleton.mp hj)

theorem Orderly.create {s : StateStore} (h : Orderly s) (record : PersistedTrainingJobRecord)
    (now : ℕ) : Orderly (createTrainingJob s record now).store := by
  obtain ⟨hjobs, hleases⟩ := create_jobs s record now
  have hsame := forall₂_map _ (supersede_same (normalizeTenant record.tenantId)
    (normalizeModel record.modelId)) s.trainingJobs
  have hold : Orderly { s with trainingJobs := s.trainingJobs.map (supersede
      (normalizeTenant record.tenantId) (normalizeModel record.modelId)) } :=
    h.same hsame (leasesKept_refl _)
  constructor
  · intro j hj
    rw [hjobs] at hj
    rcases List.mem_append.mp hj with hj | hj
    · exact hold.jobsNormal j hj
    · obtain rfl := List.mem_singleton.mp hj
      exact ⟨normalizeTenant_idem _, normalizeModel_idem _⟩
  · intro a ha
    rw [hleases] at ha
    exact h.leasesNormal a ha
  · intro t m
    rw [hjobs]
    refine List.pairwise_append.mpr ⟨hold.oneActive t m, List.pairwise_singleton _ _, ?_⟩
    -- the new job is of the scope in which all others were superseded
    rintro x hx y hy ⟨hxa, hya⟩
    obtain rfl := List.mem_singleton.mp hy
    obtain ⟨rfl, rfl, -⟩ := isActiveJobOf_iff.mp hya
    obtain ⟨z, -, rfl⟩ := List.mem_map.mp hx
    exact absurd hxa (by simpa [createTrainingJob] using supersede_not_active _ _ z)
  · intro a ha
    rw [hleases] at ha
    obtain ⟨j, hj, hid⟩ := h.owned a ha
    obtain ⟨j', hj', hs⟩ := forall₂_of_mem_left hsame hj
    exact ⟨j', by rw [hjobs]; exact List.mem_append_left _ hj', hs.jobId.trans hid⟩

def advanceJob (now : String) (round version : ℤ) (j : PersistedTrainingJobRecord) :
    PersistedTrainingJobRecord :=
  { j with
    status := if j.targetRounds > 0 ∧ j.completedRounds + 1 ≥ j.targetRounds then .completed
      else .running
    activatedAt := if j.activatedAt = "" then now else j.activatedAt
    completedRounds := j.completedRounds + 1
    currentRound := round + 1
    activeModelVersion := version }

theorem closeAssignment_kept (id : String) (r : ℤ) (now : String) (a : PersistedAssignmentLease) :
    LeaseKept a (closeAssignment id r now a) := by
  unfold closeAssignment
  split
  · refine ⟨rfl, rfl, rfl, rfl, rfl, rfl, rfl, fun h => ?_⟩
    dsimp only at h
    cases hs : a.status <;> simp_all
  · exact .refl a

theorem closeAssignment_closed {id : String} {r : ℤ} {now : String} {a : PersistedAssignmentLease}
    (hid : a.jobId = id) (hr : a.roundIndex = r) :
    (closeAssignment id r now a).status ≠ .leased := by
  unfold closeAssignment
  rw [if_pos ⟨hid, hr⟩]
  dsimp only
  cases a.status <;> simp

theorem advance_none {s : StateStore} {t m : String} (h : getActiveTrainingJob s t m = none)
    (r v : ℤ) (now : ℕ) : (advanceTrainingJobRound s t m r v now).store = s := by
  unfold advanceTrainingJobRound
  rw [h]

theorem advance_some {s : StateStore} {t m : String} {job : PersistedTrainingJobRecord}
    (h : getActiveTrainingJob s t m = some job) (r v : ℤ) (now : ℕ) :
    (advanceTrainingJobRound s t m r v now).store.trainingJobs =
      updateLast (isActiveJobOf (normalizeTenant t) (normalizeModel m))
        (advanceJob (currentTimestamp now) r v) s.trainingJobs ∧
    (advanceTrainingJobRound s t m r v now).store.assignments =
      s.assignments.map (closeAssignment job.jobId r (currentTimestamp now)) := by
  unfold advanceTrainingJobRound
  rw [h]
  constructor
  · exact (pushAuditEvent_frame _ _).1
  · exact (pushAuditEvent_frame _ _).2.1

theorem advance_jobs {s : StateStore} {t m : String} {job : PersistedTrainingJobRecord}
    (h : getActiveTrainingJob s t m = some job) (r v : ℤ) (now : ℕ) :
    List.Forall₂ (fun j j' => j' = j ∨ (j = job ∧ j' = advanceJob (currentTimestamp now) r v job))
      s.trainingJobs (advanceTrainingJobRound s t m r v now).store.trainingJobs := by
  rw [(advance_some h r v now).1]
  exact updateLast_forall₂ (fun _ => .inl rfl) h (.inr ⟨rfl, rfl⟩)

theorem advance_cases {s : StateStore} {t m : String} {job j : PersistedTrainingJobRecord}
    (h : getActiveTrainingJob s t m = some job) {r v : ℤ} {now : ℕ}
    (hj : j ∈ (advanceTrainingJobRound s t m r v now).store.trainingJobs) :
    j ∈ s.trainingJobs ∨ (job ∈ s.trainingJobs ∧ j = advanceJob (currentTimestamp now) r v job) := by
  obtain ⟨i, hi, rfl | ⟨rfl, rfl⟩⟩ := forall₂_of_mem (advance_jobs h r v now) hj
  · exact .inl hi
  · exact .inr ⟨hi, rfl⟩

theorem advance_mem {s : StateStore} {t m : String} {job : PersistedTrainingJobRecord}
    (h : getActiveTrainingJob s t m = some job) (r v : ℤ) (now : ℕ) :
    advanceJob (currentTimestamp now) r v job ∈
      (advanceTrainingJobRound s t m r v now).store.trainingJobs := by
  rw [(advance_some h r v now).1]
  exact mem_updateLast h

theorem Orderly.advance {s : StateStore} (h : Orderly s) (t m : String) (r v : ℤ) (now : ℕ) :
    Orderly (advanceTrainingJobRound s t m r v now).store := by
  cases hjob : getActiveTrainingJob s t m with
  | none =>
    rw [advance_none hjob]
    exact h
  | some job =>
    obtain ⟨hjobs, hleases⟩ := advance_some hjob r v now
    have hactive := (getActive_mem hjob).2.2.2
    apply h.same
    · rw [hjobs]
      exact updateLast_forall₂ (fun j => ⟨rfl, rfl, rfl, id⟩) hjob ⟨rfl, rfl, rfl, fun _ => hactive⟩
    · rw [hleases]
      exact forall₂_map _ (closeAssignment_kept _ _ _) _

theorem load_records {s : StateStore} (h : Orderly s) (now : ℕ) :
    (load s now).store.trainingJobs = s.trainingJobs ∧
    (load s now).store.assignments = s.assignments.map (lapse (currentTimestamp now)) := by
  have hjobs : (normalizedRecords s).trainingJobs = s.trainingJobs := by
    refine (List.map_congr_left fun j hj => ?_).trans (List.map_id _)
    obtain ⟨ht, hm⟩ := h.jobsNormal j hj
    rw [ht, hm]
    rfl
  have hleases : (normalizedRecords s).assignments = s.assignments := by
    refine (List.map_congr_left fun a ha => ?_).trans (List.map_id _)
    obtain ⟨ht, hm⟩ := h.leasesNormal a ha
    rw [ht, hm]
    rfl
  unfold load
  dsimp only
  rw [(trimAuditEventsLocked_frame _).1, (trimAuditEventsLocked_frame _).2.1,
    (expireAssignmentsLocked_frame _ _).1, (expireAssignmentsLocked_frame _ _).2.1, hjobs, hleases]
  exact ⟨rfl, rfl⟩

theorem load_move {s : StateStore} (h : Orderly s) (now : ℕ) : Move s (load s now).store := by
  obtain ⟨hjobs, hleases⟩ := load_records h now
  apply Move.kept
  · rw [hjobs]; exact jobsKept_refl _
  · rw [hleases]; exact forall₂_map _ (lapse_kept _) _

/-- Job identifiers are distinct, the counters of an active job agree, and its
leases are for the round it is in. -/
structure Ledger (s : StateStore) : Prop where
  distinct : (s.trainingJobs.map (·.jobId)).Nodup
  counted : ∀ j ∈ s.trainingJobs, isActiveJobStatus j.status = true →
    j.currentRound = j.completedRounds + 1 ∧ 0 ≤ j.completedRounds
  current : ∀ a ∈ s.assignments, a.status = .leased → ∀ j ∈ s.trainingJobs, j.jobId = a.jobId →
    isActiveJobStatus j.status = true → a.roundIndex = j.currentRound

theorem ledger_empty (n : ℕ) : Ledger (emptyStore n) where
  distinct := by simp [emptyStore]
  counted := by simp [emptyStore]
  current := by simp [emptyStore]

theorem Ledger.sameJob {s : StateStore} (h : Ledger s) {j j' : PersistedTrainingJobRecord}
    (hj : j ∈ s.trainingJobs) (hj' : j' ∈ s.trainingJobs) (hid : j.jobId = j'.jobId) : j = j' :=
  List.inj_on_of_nodup_map h.distinct hj hj' hid

theorem Ledger.kept {s s' : StateStore} (h : Ledger s)
    (hjobs : List.Forall₂ JobKept s.trainingJobs s'.trainingJobs)
    (hleases : List.Forall₂ LeaseKept s.assignments s'.assignments) : Ledger s' where
  distinct := by
    rw [map_eq_of_forall₂ _ (fun _ _ hk => hk.jobId) hjobs]
    exact h.distinct
  counted := by
    intro j' hj' hactive
    obtain ⟨j, hj, hk⟩ := forall₂_of_mem hjobs hj'
    rw [hk.currentRound, hk.completedRounds]
    exact h.counted j hj (hk.active hactive)
  current := by
    intro a' ha' hleased j' hj' hid hactive
    obtain ⟨a, ha, hka⟩ := forall₂_of_mem hleases ha'
    obtain ⟨j, hj, hkj⟩ := forall₂_of_mem hjobs hj'
    rw [hka.roundIndex, hkj.currentRound]
    apply h.current a ha (hka.leased hleased) j hj _ (hkj.active hactive)
    rw [← hkj.jobId, hid, hka.jobId]

theorem Ledger.move {s s' : StateStore} (h : Ledger s) (hm : Move s s') : Ledger s' := by
  cases hm with
  | kept hjobs hleases => exact h.kept hjobs hleases
  | @leased mid lease job hjobs hmid hleases hjob hjobActive hid hround _ =>
    have hswept : Ledger { s' with assignments := mid } := h.kept hjobs hmid
    constructor
    · exact hswept.distinct
    · exact hswept.counted
    · intro a ha hleased j' hj' hja hactive
      rw [hleases] at ha
      rcases List.mem_append.mp ha with ha | ha
      · exact hswept.current a ha hleased j' hj' hja hactive
      · obtain rfl := List.mem_singleton.mp ha
        obtain ⟨j, hj, hk⟩ := forall₂_of_mem hjobs hj'
        have hsame : j = job := by
          apply h.sameJob hj hjob
          rw [← hk.jobId, hja, hid]
        subst hsame
        have hcount := h.counted j hj hjobActive
        rw [hround, hk.currentRound]
        omega

theorem Ledger.create {s : StateStore} (h : Ledger s) (ho : Orderly s)
    (record : PersistedTrainingJobRecord) (now : ℕ) (hround : record.currentRound = 1)
    (hdone : record.completedRounds = 0)
    (hfresh : ∀ j ∈ s.trainingJobs, j.jobId ≠ (createTrainingJob s record now).value.jobId) :
    Ledger (createTrainingJob s record now).store := by
  obtain ⟨hjobs, hleases⟩ := create_jobs s record now
  have hsaved : (createTrainingJob s record now).value.currentRound = 1 ∧
      (createTrainingJob s record now).value.completedRounds = 0 := by
    constructor
    · show max 1 record.currentRound = 1
      rw [hround]
      rfl
    · exact hdone
  constructor
  · rw [hjobs, List.map_append, List.map_map]
    refine List.nodup_append.mpr ⟨?_, by simp, ?_⟩
    · have : (fun j : PersistedTrainingJobRecord => j.jobId) ∘ supersede
          (normalizeTenant record.tenantId) (normalizeModel record.modelId) = (·.jobId) :=
        funext fun j => (supersede_same _ _ j).jobId
      rw [this]
      exact h.distinct
    · intro x hx y hy
      obtain ⟨j, hj, rfl⟩ := List.mem_map.mp hx
      obtain rfl := List.mem_singleton.mp hy
      show (supersede _ _ j).jobId ≠ _
      rw [(supersede_same _ _ j).jobId]
      exact hfresh j hj
  · intro j hj hactive
    rcases create_cases hj hactive with rfl | ⟨hj, -⟩
    · omega
    · exact h.counted j hj hactive
  · intro a ha hleased j hj hid hactive
    rw [hleases] at ha
    rcases create_cases hj hactive with rfl | ⟨hj, -⟩
    · -- no assignment can be of the new job yet
      obtain ⟨i, hi, hia⟩ := ho.owned a ha
      exact absurd (hia.trans hid.symm) (hfresh i hi)
    · exact h.current a ha hleased j hj hid hactive

theorem Ledger.advance {s : StateStore} (h : Ledger s) (t m : String) (r v : ℤ)
    (now : ℕ) (hround : ∀ job, getActiveTrainingJob s t m = some job → r = job.currentRound) :
    Ledger (advanceTrainingJobRound s t m r v now).store := by
  cases hjob : getActiveTrainingJob s t m with
  | none =>
    rw [advance_none hjob]
    exact h
  | some job =>
    obtain ⟨hjobs, hleases⟩ := advance_some hjob r v now
    obtain ⟨hmem, -, -, hjobActive⟩ := getActive_mem hjob
    have hcount := h.counted job hmem hjobActive
    have hr := hround job hjob
    have hmoved := advance_jobs hjob r v now
    constructor
    · rw [map_eq_of_forall₂ _ _ hmoved]
      · exact h.distinct
      · rintro j j' (rfl | ⟨rfl, rfl⟩)
        · rfl
        · rfl
    · intro j' hj' hactive
      obtain ⟨j, hj, rfl | ⟨-, rfl⟩⟩ := forall₂_of_mem hmoved hj'
      · exact h.counted j' hj hactive
      · show r + 1 = job.completedRounds + 1 + 1 ∧ 0 ≤ job.completedRounds + 1
        omega
    · intro a' ha' hleased j' hj' hid hactive
      rw [hleases] at ha'
      obtain ⟨a, ha, rfl⟩ := List.mem_map.mp ha'
      have hkept := closeAssignment_kept job.jobId r (currentTimestamp now) a
      have haleased := hkept.leased hleased
      rw [hkept.jobId] at hid
      rw [hkept.roundIndex]
      obtain ⟨j, hj, rfl | ⟨-, rfl⟩⟩ := forall₂_of_mem hmoved hj'
      · exact h.current a ha haleased j' hj hid hactive
      · -- a lease of the advanced job was for the closed round
        have hid' : a.jobId = job.jobId := hid.symm
        have hround' := h.current a ha haleased job hmem hid'.symm hjobActive
        exact absurd hleased (closeAssignment_closed hid' (hround'.trans hr.symm))

/-- The checks of an assignment which depend on its terms alone. -/
structure Fits (a : PersistedAssignmentLease) (t m c : String) (r v : ℤ) : Prop where
  clientId : a.clientId = c
  tenantId : a.tenantId = normalizeTenant t
  modelId : a.modelId = normalizeModel m
  roundIndex : a.roundIndex = r
  baseModelVersion : ¬ (v > 0 ∧ a.baseModelVersion > 0 ∧ a.baseModelVersion ≠ v)

theorem Fits.kept {a a' : PersistedAssignmentLease} {t m c : String} {r v : ℤ}
    (h : Fits a t m c r v) (hk : LeaseKept a a') : Fits a' t m c r v where
  clientId := hk.clientId.trans h.clientId
  tenantId := hk.tenantId.trans h.tenantId
  modelId := hk.modelId.trans h.modelId
  roundIndex := hk.roundIndex.trans h.roundIndex
  baseModelVersion := by rw [hk.baseModelVersion]; exact h.baseModelVersion

def leaseNamed (s : StateStore) (id : String) : Option PersistedAssignmentLease :=
  s.assignments.find? (fun a => a.assignmentId == id)

/-- What the verdict of the checks says about the job and the lease. -/
inductive Checked (s : StateStore) (t m c jobId id : String) (r v : ℤ) (now : String) :
    SubmissionCheck → Prop
  | noActiveJob (hjob : getActiveTrainingJob s t m = none) :
    Checked s t m c jobId id r v now .noActiveJob
  | refused (message : String) : Checked s t m c jobId id r v now (.refused message)
  | lapsed {a : PersistedAssignmentLease} (ha : leaseNamed s id = some a)
      (hstatus : a.status = .leased) (htime : a.expiresAt ≠ "" ∧ a.expiresAt ≤ now) :
    Checked s t m c jobId id r v now .lapsed
  | passed {a : PersistedAssignmentLease} {job : PersistedTrainingJobRecord}
      (hjob : getActiveTrainingJob s t m = some job) (hid : jobId = job.jobId)
      (hne : jobId ≠ "" ∧ id ≠ "") (ha : leaseNamed s id = some a) (hfits : Fits a t m c r v)
      (hstatus : a.status = .leased) (htime : ¬ (a.expiresAt ≠ "" ∧ a.expiresAt ≤ now)) :
    Checked s t m c jobId id r v now (.passed a)

theorem check_checked (s : StateStore) (t m c jobId id : String) (r v : ℤ) (now : String) :
    Checked s t m c jobId id r v now
      (checkTrainingAssignmentSubmission s t m c jobId id r v now) := by
  unfold checkTrainingAssignmentSubmission
  split
  · rename_i hjob
    exact .noActiveJob hjob
  rename_i job hjob
  split
  · exact .refused _
  rename_i hne
  split
  · exact .refused _
  rename_i hid
  split
  · exact .refused _
  rename_i a ha
  split
  · exact .refused _
  rename_i hscope
  split
  · exact .refused _
  rename_i hstatus
  split
  · rename_i htime
    exact .lapsed ha (not_not.mp hstatus) htime
  rename_i htime
  split
  · exact .refused _
  rename_i hround
  split
  · exact .refused _
  rename_i hbase
  simp only [not_or, not_not] at hscope hround hstatus hid hne
  exact .passed hjob hid hne ha ⟨hscope.1, hscope.2.1, hscope.2.2, hround, hbase⟩ hstatus htime

theorem check_noActiveJob {s : StateStore} {t m c jobId id : String} {r v : ℤ} {now : String}
    (h : checkTrainingAssignmentSubmission s t m c jobId id r v now = .noActiveJob) :
    getActiveTrainingJob s t m = none := by
  have hchecked := check_checked s t m c jobId id r v now
  rw [h] at hchecked
  cases hchecked with
  | noActiveJob hjob => exact hjob

theorem check_passed {s : StateStore} {t m c jobId id : String} {r v : ℤ} {now : String}
    {a : PersistedAssignmentLease}
    (h : checkTrainingAssignmentSubmission s t m c jobId id r v now = .passed a) :
    ∃ job, getActiveTrainingJob s t m = some job ∧ jobId = job.jobId ∧ (jobId ≠ "" ∧ id ≠ "") ∧
      leaseNamed s id = some a ∧ Fits a t m c r v ∧ a.status = .leased := by
  have hchecked := check_checked s t m c jobId id r v now
  rw [h] at hchecked
  cases hchecked with
  | passed hjob hid hne ha hfits hstatus _ => exact ⟨_, hjob, hid, hne, ha, hfits, hstatus⟩

theorem leaseNamed_lapse (leases : List PersistedAssignmentLease) (now id : String) :
    (leases.map (lapse now)).find? (fun a => a.assignmentId == id) =
      (leases.find? (fun a => a.assignmentId == id)).map (lapse now) := by
  rw [List.find?_map]
  congr 2
  funext a
  simp [(lapse_kept now a).assignmentId]

theorem leaseNamed_expire (s : StateStore) (now id : String) :
    leaseNamed (expireAssignmentsLocked s now) id = (leaseNamed s id).map (lapse now) := by
  rw [leaseNamed, (expireAssignmentsLocked_frame s now).2.1, leaseNamed_lapse, leaseNamed]

theorem check_passed_expire {s : StateStore} {t m c jobId id : String} {r v : ℤ} {now : String}
    {a : PersistedAssignmentLease} {job : PersistedTrainingJobRecord}
    (hjob : getActiveTrainingJob s t m = some job)
    (h : checkTrainingAssignmentSubmission (expireAssignmentsLocked s now) t m c jobId id r v now =
      .passed a) :
    ∃ b, leaseNamed s id = some b ∧ b.status = .leased ∧ jobId = job.jobId ∧ Fits b t m c r v ∧
      (jobId ≠ "" ∧ id ≠ "") := by
  obtain ⟨job', hjob', hid, hne, hnamed, hfits, hstatus⟩ := check_passed h
  rw [getActive_expire, hjob] at hjob'
  obtain rfl := Option.some.inj hjob'
  rw [leaseNamed_expire] at hnamed
  obtain ⟨b, hb, rfl⟩ := Option.map_eq_some_iff.mp hnamed
  have hkept := lapse_kept now b
  refine ⟨b, hb, hkept.leased hstatus, hid, ?_, hne⟩
  exact ⟨hkept.clientId.symm.trans hfits.clientId, hkept.tenantId.symm.trans hfits.tenantId,
    hkept.modelId.symm.trans hfits.modelId, hkept.roundIndex.symm.trans hfits.roundIndex,
    by rw [← hkept.baseModelVersion]; exact hfits.baseModelVersion⟩

theorem leaseNamed_move {s s' : StateStore} (hm : Move s s') {id : String}
    {a : PersistedAssignmentLease} (h : leaseNamed s id = some a) :
    ∃ a', leaseNamed s' id = some a' ∧ LeaseKept a a' := by
  have hfind : ∀ {leases : List PersistedAssignmentLease},
      List.Forall₂ LeaseKept s.assignments leases →
      ∃ a', leases.find? (fun a => a.assignmentId == id) = some a' ∧ LeaseKept a a' :=
    fun hl => find?_of_forall₂ (fun x y hk => by rw [hk.assignmentId]) hl h
  cases hm with
  | kept _ hleases => exact hfind hleases
  | leased _ hmid hleases _ _ _ _ _ =>
    obtain ⟨a', ha', hkept⟩ := hfind hmid
    refine ⟨a', ?_, hkept⟩
    rw [leaseNamed, hleases, List.find?_append, ha', Option.some_or]

theorem check_of_fits {s : StateStore} {t m c jobId id : String} {r v : ℤ} {now : String}
    {a : PersistedAssignmentLease} {job : PersistedTrainingJobRecord}
    (hjob : getActiveTrainingJob s t m = some job) (hid : jobId = job.jobId)
    (hne : jobId ≠ "" ∧ id ≠ "") (ha : leaseNamed s id = some a) (hfits : Fits a t m c r v)
    (hstatus : a.status = .leased) (hnow : ¬ (a.expiresAt ≠ "" ∧ a.expiresAt ≤ now)) :
    checkTrainingAssignmentSubmission s t m c jobId id r v now = .passed a := by
  unfold checkTrainingAssignmentSubmission
  rw [leaseNamed] at ha
  simp only [hjob, ha]
  rw [if_neg (by simp [hne]), if_neg (by simp [hid]), if_neg (by simp [hfits.clientId,
    hfits.tenantId, hfits.modelId]), if_neg (by simp [hstatus]), if_neg hnow,
    if_neg (by simp [hfits.roundIndex]), if_neg hfits.baseModelVersion]

end PqFl.JobLedger
