import PqFl.FailedRollbacks
import PqFl.JobRuns
import PqFl.LiveLeases

/-!
# Leases which are issued again

A client that asks again for a lease is given the record of its first request.
The record names the model version of that time, and the check of a submission
compares it with the version of the day.
-/

set_option autoImplicit false

namespace PqFl.ReissuedLeases
open PqFl.Identifiers PqFl.Timestamps PqFl.StoreRecords PqFl.StateStore PqFl.ListUpdate
open PqFl.Buffer PqFl.Aggregation PqFl.Services PqFl.Process PqFl.JobLedger PqFl.JobSteps
open PqFl.JobRuns PqFl.Runs PqFl.Floats PqFl.Configuration PqFl.FailedRollbacks
open PqFl.LiveLeases (isLiveLeaseOf isLiveLeaseOf_iff lease_outcome LeaseOutcome lease_givenTo)

variable {F : Type} {d : Deployment F} {s s' : Server F} {a : Action F}

def PassedChecks (s : Server F) : Prop := ∀ c, submitting s = some c →
  (∃ response countClients, c.point = .respond response countClients) ∨ 1 ≤ c.q.roundIndex

theorem checked_round {q : SubmitWeightsRequest} {peer : Peer} (h : checkSubmitWeights q peer = "") :
    1 ≤ q.roundIndex := by
  unfold checkSubmitWeights at h
  dsimp only at h
  split at h
  · contradiction
  · split at h
    · exact absurd h (by decide)
    · omega

theorem startSubmit_passed (q : SubmitWeightsRequest) (peer : Peer) :
    PassedChecks (startSubmit s q peer) := by
  intro c hc
  rw [submitting_startSubmit] at hc
  obtain rfl := Option.some.inj hc
  by_cases hpasses : checkSubmitWeights q peer = ""
  · exact .inr (checked_round hpasses)
  · left
    dsimp only
    rw [startSubmitWeights, if_pos hpasses]
    exact ⟨_, _, rfl⟩

variable [FloatArith F]

/-- The rounds of active jobs start at one. -/
def FromOne (x : StateStore) : Prop :=
  ∀ j ∈ x.trainingJobs, isActiveJobStatus j.status = true → 1 ≤ j.currentRound

theorem FromOne.move {x y : StateStore} (h : FromOne x) (hm : Move x y) : FromOne y := by
  intro j' hj' hactive
  obtain ⟨j, hj, hk⟩ := forall₂_of_mem hm.jobs hj'
  rw [hk.currentRound]
  exact h j hj (hk.active hactive)

theorem FromOne.create {x : StateStore} (h : FromOne x) (record : PersistedTrainingJobRecord)
    (now : ℕ) : FromOne (createTrainingJob x record now).store := by
  intro j hj hactive
  rcases create_cases hj hactive with rfl | ⟨hold, -⟩
  · exact le_max_left 1 record.currentRound
  · exact h j hold hactive

theorem FromOne.advance {x : StateStore} (h : FromOne x) (t m : String) {r : ℤ} (hr : 1 ≤ r)
    (v : ℤ) (now : ℕ) : FromOne (advanceTrainingJobRound x t m r v now).store := by
  cases hjob : getActiveTrainingJob x t m with
  | none =>
    rw [advance_none hjob]
    exact h
  | some job =>
    intro j' hj' hactive
    rcases advance_cases hjob hj' with hold | ⟨-, rfl⟩
    · exact h j' hold hactive
    · show 1 ≤ r + 1
      omega

theorem proceedSubmit_passed (h : PassedChecks s) {c : Submitting F} (hc : submitting s = some c)
    (o : Oracle F) : PassedChecks (proceedSubmit d s c.q c.peer c.serial o c.point) := by
  intro c' hc'
  obtain ⟨p, hp, rfl⟩ := submitting_proceed.mp hc'
  rcases h c hc with ⟨response, countClients, hpoint⟩ | hround
  · -- the answer ends the handler
    rw [hpoint] at hp
    cases hp
  · exact .inr hround

theorem step_passed (h : PassedChecks s) (hs : Process.step d s a = some s') : PassedChecks s' := by
  cases step_jobStep hs with
  | moved _ _ _ _ hsubmit =>
    rw [PassedChecks, hsubmit]
    exact h
  | create _ => exact h
  | submit _ => exact startSubmit_passed _ _
  | proceed hc => exact proceedSubmit_passed h hc _
  | restart hrestart =>
    intro c hc
    obtain ⟨w, -, rfl⟩ := Option.map_eq_some_iff.mp hrestart
    cases hc

structure RoundsFromOne (s : Server F) : Prop where
  order : InOrder s
  store : FromOne s.world.store
  disk : FromOne s.world.disk
  passed : PassedChecks s

theorem step_roundsFromOne (h : RoundsFromOne s) (hs : Process.step d s a = some s') :
    RoundsFromOne s' := by
  have hadvance : ∀ (c : Submitting F) job result (now : ℕ), submitting s = some c →
      c.point = .advance job result → FromOne s.world.store →
      FromOne (advanceTrainingJobRound s.world.store (normalizeTenant c.q.tenantId)
        (normalizeModel c.q.modelId) c.q.roundIndex result.modelVersion now).store := by
    intro c job result now hc hpoint hx
    rcases h.passed c hc with ⟨response, countClients, hanswers⟩ | hround
    · rw [hpoint] at hanswers
      cases hanswers
    · exact hx.advance _ _ hround _ _
  obtain ⟨hstore, hdisk⟩ := (step_storeStep h.order.disk.1 hs).keeps (Q := FromOne)
    (fun hx hm => hx.move hm) (fun _ _ _ _ _ hx => hx.create _ _) hadvance h.store h.disk
  exact ⟨step_inOrder h.order hs, hstore, hdisk, step_passed h.passed hs⟩

theorem run_roundsFromOne {ok : Server F → Action F → Prop} {start : Start}
    (h : Reaches (Process.step d) ok (Process.initial d start) s) : RoundsFromOne s := by
  have hinitial : RoundsFromOne (Process.initial d start) :=
    { order := initial_inOrder d start
      store := by simp [FromOne, Process.initial, emptyStore]
      disk := by simp [FromOne, Process.initial, emptyStore]
      passed := by
        intro c hc
        cases hc }
  exact h.invariant hinitial (fun _ _ _ hi _ hs => step_roundsFromOne hi hs)

def liveLease (s : StateStore) (t m c : String) (now : ℕ) : Option PersistedAssignmentLease :=
  (getActiveTrainingJob s t m).bind (fun job =>
    s.assignments.find? (isLiveLeaseOf job c (currentTimestamp now)))

theorem lease_active {s : StateStore} {t m c : String} {v n ttl : ℤ} {now : ℕ}
    {leased : LeasedAssignment}
    (h : (leaseTrainingAssignment s t m c v n ttl now).value = some leased) :
    isActiveJobStatus leased.job.status = true := by
  have hrunning : ∀ {job : PersistedTrainingJobRecord}, getActiveTrainingJob s t m = some job →
      isActiveJobStatus (runningJob (currentTimestamp now) job).status = true := by
    intro job hjob
    rw [runningJob]
    split
    · rfl
    · exact (getActive_mem hjob).2.2.2
  have houtcome := lease_outcome s t m c v n ttl now
  rw [h] at houtcome
  generalize (leaseTrainingAssignment s t m c v n ttl now).store.assignments = l at houtcome
  cases houtcome with
  | again hjob _ _ => exact hrunning hjob
  | fresh hjob _ _ _ => exact hrunning hjob

end PqFl.ReissuedLeases
