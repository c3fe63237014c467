import PqFl.Configuration
import PqFl.JobRuns

/-!
# Leases are spent on their own jobs

The acceptance of a submission compares the job which the request names with
the active job, and the lease which the request names with the request, but not
the lease with the job. A lease of a superseded job can therefore be spent on
its successor. Runs in which requests name leases of the job they name keep the
ledger, and in them every accepted submission is one of the current round.
-/

set_option autoImplicit false

namespace PqFl.LeaseOwnership
open PqFl.Identifiers PqFl.Timestamps PqFl.StoreRecords PqFl.StateStore PqFl.Crypto
open PqFl.Aggregation PqFl.Buffer PqFl.Services PqFl.Process PqFl.JobLedger PqFl.JobSteps
open PqFl.JobRuns PqFl.ListUpdate PqFl.Runs PqFl.Floats PqFl.Configuration

variable {F : Type} {d : Deployment F} {s s' : Server F} {a : Action F}

/-- At the advance of a submission the active job is in the round of the
submission, and is the job of the lease under which it was accepted. -/
def AdvanceDue (s : Server F) : Prop := ∀ c job result, submitting s = some c →
  c.point = .advance job result → ∀ active, activeJob s.world.store c.q = some active →
    c.q.roundIndex = active.currentRound ∧ ∃ lease : PersistedAssignmentLease,
      lease.jobId = active.jobId ∧ .accepted c.serial c.q.roundIndex (some lease) ∈ s.history

structure LedgerKept (s : Server F) : Prop where
  order : InOrder s
  store : Ledger s.world.store
  disk : Ledger s.world.disk
  due : AdvanceDue s

theorem initial_ledgerKept (d : Deployment F) (start : Start) : LedgerKept (initial d start) where
  order := initial_inOrder d start
  store := ledger_empty _
  disk := ledger_empty _
  due := by
    intro c job result hc
    cases hc

variable [FloatArith F]

def newJobId (q : CreateTrainingJobRequest) (now : ℕ) : String :=
  normalizeTenant q.tenantId ++ "::" ++ normalizeModel q.modelId ++ "::" ++ q.datasetId ++ "::" ++
    currentTimestamp now

def freshJobId (store : StateStore) (q : CreateTrainingJobRequest) (now : ℕ) : Bool :=
  store.trainingJobs.all (fun j => j.jobId != newJobId q now)

/-- The lease of this identifier, if there is one, is of this job. -/
def ownLease (store : StateStore) (jobId assignmentId : String) : Bool :=
  (leaseNamed store assignmentId).all (fun a => a.jobId == jobId)

def inProgress (s : Server F) (points : SubmitPoint F → Bool) (tenantId modelId : String) : Bool :=
  (submitting s).any (fun c => points c.point &&
    normalizeTenant c.q.tenantId == normalizeTenant tenantId &&
    normalizeModel c.q.modelId == normalizeModel modelId)

def atAccept : SubmitPoint F → Bool
  | .accept _ _ => true
  | _ => false

def atAdvance : SubmitPoint F → Bool
  | .advance _ _ => true
  | _ => false

/-- Jobs get fresh identifiers, and not while a round of their scope is about to
be credited; a submission is accepted under a lease of the job it names. -/
def keepsOwners (d : Deployment F) (s : Server F) : Action F → Bool
  | .createTrainingJob q peer now => !createsJob d s q peer ||
      (freshJobId s.world.store q now && !inProgress s atAdvance q.tenantId q.modelId)
  | .proceed _ => (submitting s).all (fun c =>
      !atAccept c.point || ownLease s.world.store c.q.jobId c.q.assignmentId)
  | _ => true

theorem created_jobId (x : StateStore) (q : CreateTrainingJobRequest) (now : ℕ) :
    (createTrainingJob x (requestedJob q) now).value.jobId = newJobId q now := rfl

theorem Ledger.createFresh {x : StateStore} (h : Ledger x) (ho : Orderly x)
    (q : CreateTrainingJobRequest) (now : ℕ) (hfresh : freshJobId x q now = true) :
    Ledger (createTrainingJob x (requestedJob q) now).store := by
  apply h.create ho _ _ rfl rfl
  intro j hj
  have hne := List.all_eq_true.mp hfresh j hj
  rw [created_jobId]
  simpa using hne

theorem accept_ok {x : StateStore} {t m c jobId id : String} {r v : ℤ} {now : ℕ}
    {job : PersistedTrainingJobRecord} (hjob : getActiveTrainingJob x t m = some job)
    (h : (acceptTrainingAssignmentSubmission x t m c jobId id r v now).value = .ok ()) :
    ∃ a, leaseNamed x id = some a ∧ a.status = .leased ∧ jobId = job.jobId ∧ Fits a t m c r v ∧
      (acceptTrainingAssignmentSubmission x t m c jobId id r v now).store.assignments =
        updateFirst (fun a => a.assignmentId == id) (fun a => { a with
          status := .submitted
          updatedAt := currentTimestamp now
          detail := "Client submitted weights" })
          (x.assignments.map (lapse (currentTimestamp now))) := by
  have hleases := (expireAssignmentsLocked_frame x (currentTimestamp now)).2.1
  unfold acceptTrainingAssignmentSubmission at h ⊢
  dsimp only at h ⊢
  split at h
  · rename_i hnone
    have hnoJob := check_noActiveJob hnone
    rw [getActive_expire, hjob] at hnoJob
    cases hnoJob
  · cases h
  · cases h
  · rename_i a hpassed
    obtain ⟨b, hb, hleased, hid, hfits, -⟩ := check_passed_expire hjob hpassed
    refine ⟨b, hb, hleased, hid, hfits, ?_⟩
    rw [(pushAuditEvent_frame _ _).2.1]
    show updateFirst _ _ (expireAssignmentsLocked x (currentTimestamp now)).assignments = _
    rw [hleases]

theorem Ledger.accepted {x : StateStore} (h : Ledger x) {q : SubmitWeightsRequest} {now : ℕ}
    (hown : ownLease x q.jobId q.assignmentId = true)
    (hok : (acceptance x q now).value = .ok ()) {job : PersistedTrainingJobRecord}
    (hjob : activeJob x q = some job) : q.roundIndex = job.currentRound ∧
      ∃ lease, namedLease x q = some lease ∧ lease.jobId = job.jobId := by
  obtain ⟨a, hnamed, hleased, hid, hfits, -⟩ := accept_ok hjob hok
  have hajob : a.jobId = job.jobId := by
    rw [← hid]
    simpa [ownLease, hnamed] using hown
  obtain ⟨hmem, -, -, hactive⟩ := getActive_mem hjob
  refine ⟨?_, a, hnamed, hajob⟩
  rw [← hfits.roundIndex]
  exact h.current a (List.mem_of_find?_eq_some hnamed) hleased job hmem hajob.symm hactive

theorem step_advanceDue (h : LedgerKept s) (ha : keepsOwners d s a = true)
    (hs : step d s a = some s') : AdvanceDue s' := by
  intro c' job result hc' hpoint active hactive
  cases step_jobStep hs with
  | moved hmove _ hsame _ hsubmit =>
    rw [hsubmit] at hc'
    obtain ⟨before, hbefore, hkept⟩ := active_of_move h.order.store.1 hmove hactive
    obtain ⟨hround, lease, hlease, haccepted⟩ := h.due c' job result hc' hpoint before hbefore
    obtain ⟨es, hes, -⟩ := hsame.history
    refine ⟨hround.trans hkept.currentRound.symm, lease, hlease.trans hkept.jobId.symm, ?_⟩
    rw [hes]
    exact List.mem_append_left _ haccepted
  | @create q peer now hcreates =>
    have hc : submitting s = some c' := hc'
    have hscope : ¬ (normalizeTenant c'.q.tenantId = normalizeTenant q.tenantId ∧
        normalizeModel c'.q.modelId = normalizeModel q.modelId) := by
      rintro ⟨ht, hm⟩
      simp [keepsOwners, hcreates, inProgress, hc, hpoint, atAdvance, ht, hm] at ha
    have hsame : activeJob (createTrainingJob s.world.store (requestedJob q) now).store c'.q =
        activeJob s.world.store c'.q := by
      apply active_create h.order.store.1
      simpa [requestedJob] using hscope
    exact h.due c' job result hc hpoint active (hsame ▸ hactive)
  | @submit q peer _ =>
    rw [submitting_startSubmit] at hc'
    obtain rfl := Option.some.inj hc'
    rcases startSubmitWeights_cases s.world.registry q peer with hp | ⟨message, hp⟩
    · cases hp.symm.trans hpoint
    · cases hp.symm.trans hpoint
  | @proceed c o hc =>
    obtain ⟨p, hnext, rfl⟩ := submitting_proceed.mp hc'
    dsimp only at hpoint hactive ⊢
    subst hpoint
    obtain ⟨hp, hok, -⟩ := next_advance hnext
    have hown : ownLease s.world.store c.q.jobId c.q.assignmentId = true := by
      simpa [keepsOwners, hc, hp, atAccept] using ha
    have hstore : (proceedSubmit d s c.q c.peer c.serial o c.point).world.store =
        (acceptance s.world.store c.q o.now).store := by
      rw [hp]
      rfl
    rw [hstore] at hactive
    obtain ⟨before, hbefore, hkept⟩ := active_of_move h.order.store.1
      (accept_move _ _ _ _ _ _ _ _ _) hactive
    obtain ⟨hround, lease, hnamed, hlease⟩ := Ledger.accepted h.store hown hok hbefore
    refine ⟨hround.trans hkept.currentRound.symm, lease, hlease.trans hkept.jobId.symm, ?_⟩
    have hvalue : (acceptTrainingAssignmentSubmission s.world.store (normalizeTenant c.q.tenantId)
        (normalizeModel c.q.modelId) c.q.clientId c.q.jobId c.q.assignmentId c.q.roundIndex
        c.q.baseModelVersion o.now).value = .ok () := hok
    apply List.mem_append_right
    simp only [hp, observe, hvalue, hnamed, List.mem_singleton]
  | restart hrestart =>
    obtain ⟨w, -, rfl⟩ := Option.map_eq_some_iff.mp hrestart
    cases hc'

theorem step_ledgerKept (h : LedgerKept s) (ha : keepsOwners d s a = true)
    (hs : step d s a = some s') : LedgerKept s' := by
  have hkeeps := (step_storeStep h.order.disk.1 hs).keeps (Q := Ledger) (fun hx hm => hx.move hm)
    (fun q peer now hact hcreates hx => by
      subst hact
      have hfresh : freshJobId s.world.store q now = true := by
        simp only [keepsOwners, hcreates, Bool.not_true, Bool.false_or, Bool.and_eq_true] at ha
        exact ha.1
      exact Ledger.createFresh hx h.order.store.1 q now hfresh)
    (fun c job result now hc hpoint hx => hx.advance _ _ _ _ _
      (fun active hactive => (h.due c job result hc hpoint active hactive).1))
    h.store h.disk
  exact ⟨step_inOrder h.order hs, hkeeps.1, hkeeps.2, step_advanceDue h ha hs⟩

theorem run_ledgerKept {start : Start}
    (h : Reaches (step d) (fun s a => keepsOwners d s a = true) (initial d start) s) :
    LedgerKept s :=
  h.invariant (initial_ledgerKept d start) (fun _ _ _ hi ha hs => step_ledgerKept hi ha hs)

/-- What an acceptance newly marks as submitted is a lease of the job's current round. -/
def SpentOn (job : PersistedTrainingJobRecord) (a a' : PersistedAssignmentLease) : Prop :=
  a'.status = .submitted → a.status ≠ .submitted →
    a'.jobId = job.jobId ∧ a'.roundIndex = job.currentRound

/-- In a run of the condition an acceptance marks a lease of the active job's
current round exactly when the request names a lease of the job it names; every
advance is of the current round, and the counters of active jobs agree. -/
theorem spent_iff_ownLease {start : Start}
    (h : Reaches (step d) (fun s a => keepsOwners d s a = true) (initial d start) s) :
    (∀ (t m c jobId id : String) (r v : ℤ) (now : ℕ) (job : PersistedTrainingJobRecord),
      getActiveTrainingJob s.world.store t m = some job →
      (acceptTrainingAssignmentSubmission s.world.store t m c jobId id r v now).value = .ok () →
      (List.Forall₂ (SpentOn job) s.world.store.assignments
        (acceptTrainingAssignmentSubmission s.world.store t m c jobId id r v now).store.assignments ↔
        ownLease s.world.store jobId id = true)) ∧
    AdvanceDue s ∧
    ∀ j ∈ s.world.store.trainingJobs, isActiveJobStatus j.status = true →
      j.currentRound = j.completedRounds + 1 := by
  have hkept := run_ledgerKept h
  refine ⟨?_, hkept.due, fun j hj hactive => (hkept.store.counted j hj hactive).1⟩
  intro t m c jobId id r v now job hjob hok
  obtain ⟨b, hnamed, hleased, hid, hfits, hleases⟩ := accept_ok hjob hok
  obtain ⟨hmem, -, -, hactive⟩ := getActive_mem hjob
  have hlapse := fun a => lapse_kept (currentTimestamp now) a
  rw [hleases]
  constructor
  · intro hspent
    have hb : SpentOn job b _ := forall₂_updateFirst_hit
      (fun a => by simp [(hlapse a).assignmentId]) hnamed hspent
    have hjobId := (hb rfl (by simp [hleased])).1
    have hb' : b.jobId = job.jobId := (hlapse b).jobId ▸ hjobId
    simp [ownLease, hnamed, hb', hid]
  · intro hown
    have hbjob : b.jobId = job.jobId := by
      rw [← hid]
      simpa [ownLease, hnamed] using hown
    have hbround : b.roundIndex = job.currentRound := hkept.store.current b
      (List.mem_of_find?_eq_some hnamed) hleased job hmem hbjob.symm hactive
    have hfound : (s.world.store.assignments.map (lapse (currentTimestamp now))).find?
        (fun a => a.assignmentId == id) = some (lapse (currentTimestamp now) b) := by
      rw [leaseNamed] at hnamed
      rw [leaseNamed_lapse, hnamed, Option.map_some]
    have hupdated := updateFirst_forall₂ (R := SpentOn job) (f := fun a => { a with
      status := .submitted
      updatedAt := currentTimestamp now
      detail := "Client submitted weights" }) (fun a h hne => absurd h hne) hfound
      (fun _ _ => ⟨(hlapse b).jobId.trans hbjob, (hlapse b).roundIndex.trans hbround⟩)
    -- running out marks nothing as submitted
    refine forall₂_trans (R := fun a a' => a'.status = .submitted → a.status = .submitted)
      (fun a a' a'' hback hspent hsub hne => hspent hsub (fun h => hne (hback h)))
      (forall₂_map _ (fun a => ?_) _) hupdated
    unfold lapse
    split
    · intro h
      cases h
    · exact fun h => h

def leasedServer : Server Binary32 :=
  (execTested (step standardDeployment) (keepsOwners standardDeployment) leasedRun
    (initial standardDeployment firstStart)).get (by decide +kernel)

theorem spent_iff_ownLease_leasedServer :
    (∃ job, getActiveTrainingJob leasedServer.world.store "t" "m" = some job ∧
      List.Forall₂ (SpentOn job) leasedServer.world.store.assignments
        (acceptTrainingAssignmentSubmission leasedServer.world.store "t" "m" "a" jobAt1 leaseAt2 1 0
          3).store.assignments) ∧ AdvanceDue leasedServer := by
  have hspent := spent_iff_ownLease (execTested_reaches _ (fun _ _ h => h) leasedRun
    (Option.some_get _).symm : Reaches _ _ _ leasedServer)
  have hactive : (getActiveTrainingJob leasedServer.world.store "t" "m").isSome = true := by
    decide +kernel
  obtain ⟨job, hjob⟩ := Option.isSome_iff_exists.mp hactive
  have hok : (acceptTrainingAssignmentSubmission leasedServer.world.store "t" "m" "a" jobAt1
      leaseAt2 1 0 3).value = .ok () := by decide +kernel
  have hown : ownLease leasedServer.world.store jobAt1 leaseAt2 = true := by decide +kernel
  exact ⟨⟨job, hjob, (hspent.1 _ _ _ _ _ _ _ _ job hjob hok).mpr hown⟩, hspent.2.1⟩

def supersededServer : Server Binary32 :=
  (exec (step standardDeployment) (leasedRun ++ [creatingJob 3 1 3])
    (initial standardDeployment firstStart)).get (by decide +kernel)

/-- The lease of the superseded job is marked as submitted for its successor. -/
theorem superseded_lease_spent :
    ¬ ∀ s, Reaches (step standardDeployment) Free (initial standardDeployment firstStart) s →
      ∀ (t m c jobId id : String) (r v : ℤ) (now : ℕ) (job : PersistedTrainingJobRecord),
        getActiveTrainingJob s.world.store t m = some job →
        (acceptTrainingAssignmentSubmission s.world.store t m c jobId id r v now).value = .ok () →
        List.Forall₂ (SpentOn job) s.world.store.assignments
          (acceptTrainingAssignmentSubmission s.world.store t m c jobId id r v
            now).store.assignments := by
  intro hall
  have hreach : Reaches (step standardDeployment) Free (initial standardDeployment firstStart)
      supersededServer := exec_reaches _ (Option.some_get _).symm
  have hactive : (getActiveTrainingJob supersededServer.world.store "t" "m").map (·.jobId) =
      some jobAt3 := by decide +kernel
  obtain ⟨job, hjob, hid⟩ := Option.map_eq_some_iff.mp hactive
  have hspent := hall _ hreach "t" "m" "a" jobAt3 leaseAt2 1 0 4 job hjob (by decide +kernel)
  have hmarked : ∃ pair ∈ supersededServer.world.store.assignments.zip
      (acceptTrainingAssignmentSubmission supersededServer.world.store "t" "m" "a" jobAt3 leaseAt2 1
        0 4).store.assignments,
      pair.2.status = .submitted ∧ pair.1.status ≠ .submitted ∧ pair.2.jobId = jobAt1 := by
    decide +kernel
  obtain ⟨pair, hpair, hsubmitted, hbefore, hfirst⟩ := hmarked
  have hjobId := (List.forall₂_zip hspent hpair hsubmitted hbefore).1
  rw [hfirst, hid] at hjobId
  exact absurd hjobId (by decide)

end PqFl.LeaseOwnership
