import PqFl.BufferSteps
import PqFl.JobProgress

/-!
# Rounds that stay closed

A round that the buffer has completed stays completed until the process is
started again. No submission for it is accepted any more, and no job counts it:
a job in such a round keeps its counters for the rest of the process.
-/

set_option autoImplicit false

namespace PqFl.ClosedRounds
open PqFl.Identifiers PqFl.Timestamps PqFl.StoreRecords PqFl.StateStore PqFl.Crypto
open PqFl.Aggregation PqFl.Buffer PqFl.Services PqFl.Process PqFl.JobLedger PqFl.JobSteps
open PqFl.JobRuns PqFl.ListUpdate PqFl.Runs PqFl.Floats PqFl.Configuration PqFl.LeaseOwnership
open PqFl.SubmissionTracking PqFl.PendingSubmissions PqFl.BufferSteps PqFl.JobProgress

variable {F : Type} [FloatArith F] {d : Deployment F} {s s' s₀ : Server F} {a : Action F}

def goesOn : Action F → Bool
  | .restart _ => false
  | _ => true

theorem proceed_completed (c : Submitting F) (o : Oracle F) :
    s.world.buffer.completedRounds ⊆
      (proceedSubmit d s c.q c.peer c.serial o c.point).world.buffer.completedRounds := by
  show _ ⊆ (stepSubmitWeights d s.world c.q c.peer o c.point).1.buffer.completedRounds
  rcases stepSubmitWeights_buffer (d := d) s.world c.q c.peer o c.point with
    ⟨job, weights, hpoint⟩ | ⟨job, p, v, hpoint⟩ | hsame
  · rw [hpoint]
    exact (addWeight_added _ _ _ _ _ _ _).sameBut.completed.symm.subset
  · rw [hpoint]
    exact Finset.subset_insert _ _
  · rw [hsame]

theorem step_completed (ha : goesOn a = true) (hs : step d s a = some s') :
    s.world.buffer.completedRounds ⊆ s'.world.buffer.completedRounds := by
  cases step_bufferStep hs with
  | kept hbuffer hsubmitting hrecorded => rw [hbuffer]
  | submit hidle => exact Finset.Subset.refl _
  | @proceed c o hc => exact proceed_completed c o
  | restored hcall hfree hbuffer hsubmitting hrecorded =>
    rw [hbuffer]
    exact Finset.Subset.refl _
  | restart hrestart => cases ha

/-- The submission has found its round open, and is not refused since. -/
def foundOpen : SubmitPoint F → Bool
  | .respond response _ => response.accepted
  | p => 3 < stage p

theorem next_foundOpen {w : World F} {q : SubmitWeightsRequest} {peer : Peer} {o : Oracle F}
    {p p' : SubmitPoint F} (h : (stepSubmitWeights d w q peer o p).2 = .inl p')
    (hopen : foundOpen p' = true) :
    foundOpen p = true ∨ (stage p = 3 ∧ requestKey q ∉ w.buffer.completedRounds) := by
  cases p with
  | modelVersion =>
    obtain rfl := Sum.inl.inj h
    split at hopen
    · cases hopen
    · cases hopen
  | activeJob current =>
    simp only [stepSubmitWeights] at h
    split at h
    · obtain rfl := Sum.inl.inj h
      cases hopen
    · obtain rfl := Sum.inl.inj h
      cases hopen
  | validate current job =>
    obtain rfl := Sum.inl.inj h
    split at hopen
    · cases hopen
    · cases hopen
  | roundCheck current job =>
    obtain rfl := Sum.inl.inj h
    right
    refine ⟨rfl, fun hclosed => ?_⟩
    have hcompleted : isRoundCompleted w.buffer (normalizeTenant q.tenantId)
        (normalizeModel q.modelId) q.roundIndex = true := decide_eq_true hclosed
    rw [if_pos hcompleted] at hopen
    cases hopen
  | respond response countClients => cases h
  | _ => exact .inl rfl

/-- Every submission in progress that found its round open did so after it was
open in the first state. -/
def FoundOpen (closed : Finset String) (s : Server F) : Prop :=
  ∀ c, submitting s = some c → foundOpen c.point = true → requestKey c.q ∉ closed

theorem step_foundOpen {closed : Finset String} (hclosed : closed ⊆ s.world.buffer.completedRounds)
    (h : FoundOpen closed s) (hs : step d s a = some s') : FoundOpen closed s' := by
  intro c' hc' hopen
  cases step_jobStep hs with
  | moved _ _ _ _ hsubmit =>
    rw [hsubmit] at hc'
    exact h c' hc' hopen
  | create _ => exact h c' hc' hopen
  | @submit q peer _ =>
    rw [submitting_startSubmit] at hc'
    obtain rfl := Option.some.inj hc'
    rcases startSubmitWeights_cases (F := F) s.world.registry q peer with hp | ⟨message, hp⟩
    · rw [hp] at hopen
      cases hopen
    · rw [hp] at hopen
      cases hopen
  | @proceed c o hc =>
    obtain ⟨p, hnext, rfl⟩ := submitting_proceed.mp hc'
    rcases next_foundOpen hnext hopen with hbefore | ⟨-, hround⟩
    · exact h c hc hbefore
    · exact fun hmem => hround (hclosed hmem)
  | restart hrestart =>
    obtain ⟨w, -, rfl⟩ := Option.map_eq_some_iff.mp hrestart
    cases hc'

/-- What was accepted since the first state was for a round that was open there. -/
def AcceptedOpen (s₀ s : Server F) : Prop :=
  ∃ later, s.events = s₀.events ++ later ∧ ∀ n t m c r response,
    .answered n t m c r response ∈ later → response.accepted = true →
    roundKey t m r ∉ s₀.world.buffer.completedRounds

theorem step_acceptedOpen (hfound : FoundOpen s₀.world.buffer.completedRounds s)
    (h : AcceptedOpen s₀ s) (hs : step d s a = some s') : AcceptedOpen s₀ s' := by
  obtain ⟨later, hevents, hopen⟩ := h
  rcases step_history hs with ⟨es, hhistory, hpast, hadded⟩ | ⟨hhistory, hpast⟩
  · refine ⟨later ++ es, ?_, ?_⟩
    · rw [← List.append_assoc, ← hevents, Server.events, hhistory, hpast, ← List.append_assoc]
      rfl
    · intro n t m c r response he haccepted
      rcases List.mem_append.mp he with hold | hnew
      · exact hopen n t m c r response hold haccepted
      · cases hadded _ hnew with
        | restored he => cases he
        | passed he => cases he
        | @observed c' o hact hc he =>
          cases hpoint : c'.point with
          | respond text countClients =>
            rw [hpoint] at he
            cases he with
            | answered hverdict =>
              apply hfound c' hc
              rw [hpoint]
              exact hverdict.symm.trans haccepted
          | _ =>
            rw [hpoint] at he
            cases he
  · refine ⟨later, ?_, hopen⟩
    rw [← hevents, Server.events, hhistory, hpast, List.append_nil]

/-- A job counts only rounds which were not closed. -/
structure Counts (closed : Finset String) (j₀ j : PersistedTrainingJobRecord) : Prop where
  tenantId : j.tenantId = j₀.tenantId
  modelId : j.modelId = j₀.modelId
  forward : j₀.currentRound ≤ j.currentRound
  rounds : j.currentRound - j₀.currentRound = j.completedRounds - j₀.completedRounds
  wasOpen : ∀ r, j₀.currentRound ≤ r → r < j.currentRound →
    roundKey j₀.tenantId j₀.modelId r ∉ closed

section
variable {closed : Finset String} {j₀ j j' : PersistedTrainingJobRecord}

theorem Counts.congr (h : Counts closed j₀ j) (htenant : j'.tenantId = j.tenantId)
    (hmodel : j'.modelId = j.modelId) (hround : j'.currentRound = j.currentRound)
    (hdone : j'.completedRounds = j.completedRounds) : Counts closed j₀ j' where
  tenantId := htenant.trans h.tenantId
  modelId := hmodel.trans h.modelId
  forward := by
    rw [hround]
    exact h.forward
  rounds := by
    rw [hround, hdone]
    exact h.rounds
  wasOpen := by
    rw [hround]
    exact h.wasOpen

theorem Counts.advance (h : Counts closed j₀ j) (now : String) (v : ℤ)
    (hopen : roundKey j.tenantId j.modelId j.currentRound ∉ closed) :
    Counts closed j₀ (advanceJob now j.currentRound v j) where
  tenantId := h.tenantId
  modelId := h.modelId
  forward := by
    have hforward := h.forward
    show j₀.currentRound ≤ j.currentRound + 1
    omega
  rounds := by
    have hrounds := h.rounds
    show j.currentRound + 1 - j₀.currentRound = j.completedRounds + 1 - j₀.completedRounds
    omega
  wasOpen := by
    intro r hfirst hlast
    have hlast' : r < j.currentRound + 1 := hlast
    by_cases hcurrent : r = j.currentRound
    · rw [hcurrent, ← h.tenantId, ← h.modelId]
      exact hopen
    · exact h.wasOpen r hfirst (by omega)

theorem Counts.stuck (h : Counts closed j₀ j)
    (hclosed : roundKey j₀.tenantId j₀.modelId j₀.currentRound ∈ closed) :
    j.currentRound = j₀.currentRound ∧ j.completedRounds = j₀.completedRounds := by
  have hforward := h.forward
  have hrounds := h.rounds
  have hsame : j.currentRound = j₀.currentRound := by
    by_contra hmoved
    exact h.wasOpen j₀.currentRound le_rfl (by omega) hclosed
  exact ⟨hsame, by omega⟩

end

/-- The jobs of the first state are still there, and have counted open rounds only. -/
structure JobsCount (closed : Finset String) (x y : StateStore) : Prop where
  stays : ∀ j₀ ∈ x.trainingJobs, ∃ j ∈ y.trainingJobs, j.jobId = j₀.jobId
  counts : ∀ j₀ ∈ x.trainingJobs, ∀ j ∈ y.trainingJobs, j.jobId = j₀.jobId → Counts closed j₀ j

theorem jobsCount_self {closed : Finset String} {x : StateStore} (h : Ledger x) :
    JobsCount closed x x where
  stays j₀ hj₀ := ⟨j₀, hj₀, rfl⟩
  counts j₀ hj₀ j hj hid := by
    obtain rfl := h.sameJob hj hj₀ hid
    refine ⟨rfl, rfl, le_rfl, by omega, ?_⟩
    intro r hfirst hlast
    omega

section
variable {closed : Finset String} {x y z : StateStore}

theorem JobsCount.move (h : JobsCount closed x y) (hm : Move y z) : JobsCount closed x z where
  stays j₀ hj₀ := by
    obtain ⟨j, hj, hid⟩ := h.stays j₀ hj₀
    obtain ⟨j', hj', hk⟩ := forall₂_of_mem_left hm.jobs hj
    exact ⟨j', hj', hk.jobId.trans hid⟩
  counts j₀ hj₀ j' hj' hid := by
    obtain ⟨j, hj, hk⟩ := forall₂_of_mem hm.jobs hj'
    exact (h.counts j₀ hj₀ j hj (hk.jobId.symm.trans hid)).congr hk.tenantId hk.modelId
      hk.currentRound hk.completedRounds

theorem JobsCount.create (h : JobsCount closed x y) (q : CreateTrainingJobRequest) (now : ℕ)
    (hfresh : freshJobId y q now = true) :
    JobsCount closed x (createTrainingJob y (requestedJob q) now).store where
  stays j₀ hj₀ := by
    obtain ⟨j, hj, hid⟩ := h.stays j₀ hj₀
    refine ⟨supersede (normalizeTenant q.tenantId) (normalizeModel q.modelId) j, ?_, ?_⟩
    · rw [(create_jobs _ _ _).1]
      exact List.mem_append_left _ (List.mem_map_of_mem hj)
    · exact (supersede_same _ _ j).jobId.trans hid
  counts j₀ hj₀ j' hj' hid := by
    rw [(create_jobs _ _ _).1] at hj'
    rcases List.mem_append.mp hj' with hold | hnew
    · obtain ⟨j, hj, rfl⟩ := List.mem_map.mp hold
      have hsame := supersede_same (normalizeTenant (requestedJob q).tenantId)
        (normalizeModel (requestedJob q).modelId) j
      have hcounters := supersede_counters (normalizeTenant (requestedJob q).tenantId)
        (normalizeModel (requestedJob q).modelId) j
      exact (h.counts j₀ hj₀ j hj (hsame.jobId.symm.trans hid)).congr hsame.tenantId hsame.modelId
        hcounters.2 hcounters.1
    · obtain rfl := List.mem_singleton.mp hnew
      obtain ⟨j, hj, hold⟩ := h.stays j₀ hj₀
      have hother := List.all_eq_true.mp hfresh j hj
      have hsame : j.jobId = newJobId q now := hold.trans (hid.symm.trans (created_jobId y q now))
      simp [hsame] at hother

theorem JobsCount.advance (h : JobsCount closed x y) {t m : String} {r : ℤ} (v : ℤ) (now : ℕ)
    (hround : ∀ active, getActiveTrainingJob y t m = some active → r = active.currentRound ∧
      roundKey active.tenantId active.modelId r ∉ closed) :
    JobsCount closed x (advanceTrainingJobRound y t m r v now).store := by
  cases hactive : getActiveTrainingJob y t m with
  | none =>
    rw [advance_none hactive]
    exact h
  | some active =>
    obtain ⟨rfl, hopen⟩ := hround active hactive
    have hmoves := advance_jobs hactive active.currentRound v now
    constructor
    · intro j₀ hj₀
      obtain ⟨j, hj, hid⟩ := h.stays j₀ hj₀
      obtain ⟨j', hj', rfl | ⟨rfl, rfl⟩⟩ := forall₂_of_mem_left hmoves hj
      · exact ⟨_, hj', hid⟩
      · exact ⟨_, hj', hid⟩
    · intro j₀ hj₀ j' hj' hid
      obtain ⟨j, hj, rfl | ⟨rfl, rfl⟩⟩ := forall₂_of_mem hmoves hj'
      · exact h.counts j₀ hj₀ _ hj hid
      · exact (h.counts j₀ hj₀ _ hj hid).advance _ v hopen

end

theorem step_jobsCount {closed : Finset String} {x : StateStore} (htracked : Tracked s)
    (hfound : FoundOpen closed s) (h : JobsCount closed x s.world.store)
    (ha : undisturbed d s a = true) (hgoes : goesOn a = true) (hs : step d s a = some s') :
    JobsCount closed x s'.world.store := by
  cases step_storeStep htracked.ledger.order.disk.1 hs with
  | moved hmove _ => exact h.move hmove
  | @created q peer now _ hcreates hstore _ =>
    rw [hstore]
    exact h.create q now (undisturbed_create ha hcreates).1
  | @advanced o c job result _ hc hpoint hstore _ =>
    rw [hstore]
    apply h.advance
    intro active hactive
    have hopen := hfound c hc (by rw [hpoint]; rfl)
    have hround := (htracked.ledger.due c job result hc hpoint active hactive).1
    obtain ⟨-, htenant, hmodel, -⟩ := getActive_mem hactive
    rw [normalizeTenant_idem] at htenant
    rw [normalizeModel_idem] at hmodel
    refine ⟨hround, ?_⟩
    rw [htenant, hmodel]
    exact hopen
  | restarted _ _ _ => cases hgoes

/-- The step is undisturbed, and does not start the process again. -/
def Continues (d : Deployment F) (s : Server F) (a : Action F) : Prop :=
  undisturbed d s a = true ∧ goesOn a = true

/-- What a run of the process keeps of its first state. -/
structure Since (s₀ s : Server F) : Prop where
  tracked : Tracked s
  completed : s₀.world.buffer.completedRounds ⊆ s.world.buffer.completedRounds
  found : FoundOpen s₀.world.buffer.completedRounds s
  accepted : AcceptedOpen s₀ s
  jobs : JobsCount s₀.world.buffer.completedRounds s₀.world.store s.world.store

theorem step_since (h : Since s₀ s) (ha : Continues d s a) (hs : step d s a = some s') :
    Since s₀ s' where
  tracked := step_tracked h.tracked ha.1 hs
  completed := h.completed.trans (step_completed ha.2 hs)
  found := step_foundOpen h.completed h.found hs
  accepted := step_acceptedOpen h.found h.accepted hs
  jobs := step_jobsCount h.tracked h.found h.jobs ha.1 ha.2 hs

omit [FloatArith F] in
theorem since_self (htracked : Tracked s₀) (hidle : s₀.federated = none) : Since s₀ s₀ where
  tracked := htracked
  completed := Finset.Subset.refl _
  found := by
    intro c hc
    rw [submitting_none hidle] at hc
    cases hc
  accepted := by
    refine ⟨[], (List.append_nil _).symm, ?_⟩
    intro n t m c r response he
    cases he
  jobs := jobsCount_self htracked.ledger.store

/-- From a state between two requests on, and until the process is started again:
what is accepted is for a round that was open there, and a job which is there
stays, counts open rounds only, and never leaves a round that was closed. -/
theorem closed_rounds_stay {start : Start}
    (hstart : Reaches (step d) (fun s a => undisturbed d s a = true) (initial d start) s₀)
    (hidle : s₀.federated = none) (h : Reaches (step d) (Continues d) s₀ s) :
    AcceptedOpen s₀ s ∧
    ∀ j₀ ∈ s₀.world.store.trainingJobs,
      (∃ j ∈ s.world.store.trainingJobs, j.jobId = j₀.jobId) ∧
      ∀ j ∈ s.world.store.trainingJobs, j.jobId = j₀.jobId →
        Counts s₀.world.buffer.completedRounds j₀ j ∧
        (roundKey j₀.tenantId j₀.modelId j₀.currentRound ∈ s₀.world.buffer.completedRounds →
          j.currentRound = j₀.currentRound ∧ j.completedRounds = j₀.completedRounds) := by
  have htracked : Tracked s₀ := hstart.invariant (initial_tracked d start)
    (fun _ _ _ hi ha hs => step_tracked hi ha hs)
  have hsince : Since s₀ s := h.invariant (since_self htracked hidle)
    (fun _ _ _ hi ha hs => step_since hi ha hs)
  refine ⟨hsince.accepted, fun j₀ hj₀ => ⟨hsince.jobs.stays j₀ hj₀, fun j hj hid => ?_⟩⟩
  have hcounts := hsince.jobs.counts j₀ hj₀ j hj hid
  exact ⟨hcounts, hcounts.stuck⟩

/-- A second job, whose first round was completed under the first job. -/
def secondJobServer : Server Binary32 :=
  (execTested (step standardDeployment) (undisturbed standardDeployment)
    (acceptedRun ++ proceeds 2 3 ++ [creatingJob 3 1 4])
    (initial standardDeployment firstStart)).get (by decide +kernel)

def secondJobId : String := "t::m::d::1970-01-01T00:00:00.004Z"

/-- The client leases the first round of the second job, and submits for it. -/
def secondJobRun : List (Action Binary32) :=
  leasing "a" site 5 ++ .submitWeights { zeroSubmission "a" 1 secondJobId
    (secondJobId ++ "::round:1::client:a::1970-01-01T00:00:00.005Z") with
      baseModelVersion := 1 } site :: proceeds 5 6

def continues (d : Deployment F) (s : Server F) (a : Action F) : Bool :=
  undisturbed d s a && goesOn a

omit [FloatArith F] in
theorem continues_of (h : continues d s a = true) : Continues d s a := by
  simpa [continues, Continues] using h

def stuckServer : Server Binary32 :=
  (execTested (step standardDeployment) (continues standardDeployment) secondJobRun
    secondJobServer).get (by decide +kernel)

theorem closed_rounds_stay_stuckServer :
    AcceptedOpen secondJobServer stuckServer ∧
    ∃ j ∈ stuckServer.world.store.trainingJobs,
      j.jobId = secondJobId ∧ j.currentRound = 1 ∧ j.completedRounds = 0 := by
  have hstart : Reaches (step standardDeployment)
      (fun s a => undisturbed standardDeployment s a = true)
      (initial standardDeployment firstStart) secondJobServer :=
    execTested_reaches _ (fun _ _ h => h) _ (Option.some_get _).symm
  have hrun : Reaches (step standardDeployment) (Continues standardDeployment)
      secondJobServer stuckServer :=
    execTested_reaches _ (fun _ _ h => continues_of h) _ (Option.some_get _).symm
  obtain ⟨haccepted, hjobs⟩ := closed_rounds_stay hstart
    (Option.isNone_iff_eq_none.mp (by decide +kernel)) hrun
  have hsecond : ∃ j ∈ secondJobServer.world.store.trainingJobs, j.jobId = secondJobId ∧
      j.currentRound = 1 ∧ j.completedRounds = 0 ∧ roundKey j.tenantId j.modelId j.currentRound ∈
        secondJobServer.world.buffer.completedRounds := by
    decide +kernel
  obtain ⟨j₀, hj₀, hid₀, hround, hdone, hclosed⟩ := hsecond
  obtain ⟨⟨j, hj, hid⟩, hstay⟩ := hjobs j₀ hj₀
  obtain ⟨hround', hdone'⟩ := (hstay j hj hid).2 hclosed
  exact ⟨haccepted, j, hj, hid.trans hid₀, hround'.trans hround, hdone'.trans hdone⟩

end PqFl.ClosedRounds
