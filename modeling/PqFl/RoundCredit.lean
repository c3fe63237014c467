import PqFl.LeaseOwnership

/-!
# Rounds are credited to the job that earned them

The advance of a submission carries no job: it looks for the active job of the
scope again. A job that supersedes the earner between acceptance and advance is
therefore credited with the round.
-/

set_option autoImplicit false

namespace PqFl.RoundCredit
open PqFl.Identifiers PqFl.Timestamps PqFl.StoreRecords PqFl.StateStore PqFl.Crypto
open PqFl.Aggregation PqFl.Buffer PqFl.Services PqFl.Process PqFl.JobLedger PqFl.JobSteps
open PqFl.JobRuns PqFl.ListUpdate PqFl.Runs PqFl.Floats PqFl.Configuration PqFl.LeaseOwnership

variable {F : Type} {d : Deployment F} {s s' : Server F} {a : Action F}

/-- The counters of a job change only when a submission advances it that was
accepted under a lease of this job, and of no other, for this round. -/
def Credited (s s' : Server F) : Prop := ∀ (i : ℕ) (j j' : PersistedTrainingJobRecord),
  s.world.store.trainingJobs[i]? = some j → s'.world.store.trainingJobs[i]? = some j' →
  (j'.completedRounds ≠ j.completedRounds ∨ j'.currentRound ≠ j.currentRound) →
  ∃ (c : Submitting F) (lease : PersistedAssignmentLease), submitting s = some c ∧
    atAdvance c.point = true ∧ .accepted c.serial c.q.roundIndex (some lease) ∈ s.history ∧
    lease.jobId = j.jobId ∧ (∀ k ∈ s.world.store.trainingJobs, k.jobId = lease.jobId → k = j) ∧
    c.q.roundIndex = j.currentRound ∧
    j'.completedRounds = j.completedRounds + 1 ∧ j'.currentRound = j.currentRound + 1

theorem credited_of_same (h : ∀ (i : ℕ) (j j' : PersistedTrainingJobRecord),
      s.world.store.trainingJobs[i]? = some j → s'.world.store.trainingJobs[i]? = some j' →
      j'.completedRounds = j.completedRounds ∧ j'.currentRound = j.currentRound) :
    Credited s s' := by
  intro i j j' hj hj' hne
  obtain ⟨hdone, hround⟩ := h i j j' hj hj'
  rcases hne with hne | hne
  · exact absurd hdone hne
  · exact absurd hround hne

variable [FloatArith F]

theorem step_credited (h : LedgerKept s) (hs : step d s a = some s') : Credited s s' := by
  cases step_storeStep h.order.disk.1 hs with
  | moved hmove _ =>
    apply credited_of_same
    intro i j j' hj hj'
    have hkept := forall₂_getElem? hmove.jobs hj hj'
    exact ⟨hkept.completedRounds, hkept.currentRound⟩
  | @created q peer now _ hcreates hstore _ =>
    apply credited_of_same
    intro i j j' hj hj'
    obtain ⟨hi, -⟩ := List.getElem?_eq_some_iff.mp hj
    rw [hstore, (create_jobs _ _ _).1, List.getElem?_append_left (by simpa using hi),
      List.getElem?_map, hj, Option.map_some] at hj'
    obtain rfl := Option.some.inj hj'
    exact supersede_counters _ _ j
  | @advanced o c job result _ hc hpoint hstore _ =>
    intro i j j' hj hj' hne
    rw [hstore] at hj'
    cases hactive : getActiveTrainingJob s.world.store (normalizeTenant c.q.tenantId)
        (normalizeModel c.q.modelId) with
    | none =>
      rw [advance_none hactive, hj] at hj'
      simp [Option.some.inj hj'] at hne
    | some active =>
      rcases forall₂_getElem? (advance_jobs hactive _ _ _) hj hj' with rfl | ⟨rfl, rfl⟩
      · simp at hne
      · obtain ⟨hround, lease, hlease, haccepted⟩ := h.due c job result hc hpoint j hactive
        refine ⟨c, lease, hc, by rw [hpoint]; rfl, haccepted, hlease, ?_, hround, rfl, ?_⟩
        · intro k hk hid
          exact h.store.sameJob hk (List.mem_of_getElem? hj) (hid.trans hlease)
        · show c.q.roundIndex + 1 = j.currentRound + 1
          rw [hround]
  | restarted _ hjobs _ =>
    apply credited_of_same
    intro i j j' hj hj'
    rw [hjobs, h.order.jobs, hj] at hj'
    rw [Option.some.inj hj']
    exact ⟨rfl, rfl⟩

/-- In a run of the condition every step credits the job that earned the round. -/
theorem rounds_credited_to_earner {start : Start}
    (h : Reaches (step d) (fun s a => keepsOwners d s a = true) (initial d start) s)
    (hs : step d s a = some s') : Credited s s' := step_credited (run_ledgerKept h) hs

/-- A first round of a first job, up to the advance. -/
def acceptedServer : Server Binary32 :=
  (execTested (step standardDeployment) (keepsOwners standardDeployment) acceptedRun
    (initial standardDeployment firstStart)).get (by decide +kernel)

theorem rounds_credited_to_earner_acceptedServer :
    ∃ s', step standardDeployment acceptedServer (.proceed (calm 4)) = some s' ∧
      Credited acceptedServer s' ∧ s'.world.store.trainingJobs.map (·.completedRounds) = [1] := by
  have hreach : Reaches (step standardDeployment) (fun s a => keepsOwners standardDeployment s a =
      true) (initial standardDeployment firstStart) acceptedServer :=
    execTested_reaches _ (fun _ _ h => h) acceptedRun (Option.some_get _).symm
  have hcounters : (step standardDeployment acceptedServer (.proceed (calm 4))).map (fun s' =>
      s'.world.store.trainingJobs.map (·.completedRounds)) = some [1] := by decide +kernel
  obtain ⟨s', hs, hcount⟩ := Option.map_eq_some_iff.mp hcounters
  exact ⟨s', hs, rounds_credited_to_earner hreach hs, hcount⟩

def overtakenServer : Server Binary32 :=
  (exec (step standardDeployment) (acceptedRun ++ [creatingJob 3 1 3])
    (initial standardDeployment firstStart)).get (by decide +kernel)

def acceptsOnlyFor (jobId : String) : Event Binary32 → Bool
  | .accepted _ _ (some lease) => lease.jobId == jobId
  | _ => true

/-- The job that was created between acceptance and advance gets the round. -/
theorem successor_credited :
    ¬ ∀ s s' a, Reaches (step standardDeployment) Free (initial standardDeployment firstStart) s →
      step standardDeployment s a = some s' → Credited s s' := by
  intro hall
  have hreach : Reaches (step standardDeployment) Free (initial standardDeployment firstStart)
      overtakenServer := exec_reaches _ (Option.some_get _).symm
  have hbefore : overtakenServer.world.store.trainingJobs[1]?.map (fun j =>
      (j.jobId, j.completedRounds)) = some (jobAt3, 0) := by decide +kernel
  have hafter : (step standardDeployment overtakenServer (.proceed (calm 4))).bind (fun s' =>
      s'.world.store.trainingJobs[1]?.map (·.completedRounds)) = some 1 := by decide +kernel
  have hfirst : overtakenServer.history.all (acceptsOnlyFor jobAt1) = true := by decide +kernel
  obtain ⟨s', hs, hs'⟩ := Option.bind_eq_some_iff.mp hafter
  obtain ⟨j, hj, hj1⟩ := Option.map_eq_some_iff.mp hbefore
  obtain ⟨hid, hdone⟩ := Prod.mk.inj hj1
  obtain ⟨j', hj', hdone'⟩ := Option.map_eq_some_iff.mp hs'
  obtain ⟨c, lease, -, -, haccepted, hlease, -⟩ := hall _ s' _ hreach hs 1 j j' hj hj'
    (.inl (by rw [hdone, hdone']; decide))
  have honly := List.all_eq_true.mp hfirst _ haccepted
  simp only [acceptsOnlyFor, hlease, hid] at honly
  exact absurd honly (by decide)

end PqFl.RoundCredit
