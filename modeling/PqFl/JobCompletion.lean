import PqFl.ActiveVersions
import PqFl.FailedRollbacks
import PqFl.ServerStore
import PqFl.TaskIdentifiers
import PqFl.TrainerVisits

/-!
# Jobs can be completed

A job whose rounds are all open, none of whose leases is still alive, is
brought to its end by visits of registered trainers, as many different ones for
each round as the job asks for. This holds whatever the handlers read from the
clock and draw, while each lease lasts to the end of its visit.
-/

set_option autoImplicit false

namespace PqFl.JobCompletion
open PqFl.Identifiers PqFl.Timestamps PqFl.StoreRecords PqFl.StateStore PqFl.ClientRegistry
open PqFl.Crypto PqFl.Aggregation PqFl.Buffer PqFl.Services PqFl.Process PqFl.Runs PqFl.ListUpdate
open PqFl.JobLedger PqFl.JobSteps PqFl.JobRuns PqFl.LiveLeases PqFl.RecordIdentifiers
open PqFl.SubmissionTracking PqFl.RoundCompletion PqFl.TrainerVisits PqFl.ActiveVersions
open PqFl.FailedRollbacks PqFl.TaskIdentifiers PqFl.Configuration PqFl.Floats

variable {F : Type} {d : Deployment F}

/-- The keys and the identities of the clients are the same. -/
structure SameParties (w w' : World F) : Prop where
  crypto : w'.crypto = w.crypto
  bindings : ∀ key, boundIdentity w'.registry key = boundIdentity w.registry key

theorem SameParties.refl (w : World F) : SameParties w w := ⟨rfl, fun _ => rfl⟩

theorem SameParties.trans {w w' w'' : World F} (h : SameParties w w') (h' : SameParties w' w'') :
    SameParties w w'' :=
  ⟨h'.crypto.trans h.crypto, fun key => (h'.bindings key).trans (h.bindings key)⟩

def leaseMillis (d : Deployment F) (job : PersistedTrainingJobRecord) : ℕ :=
  1000 * (max 0 (if job.assignmentTtlSeconds > 0 then job.assignmentTtlSeconds
    else d.config.defaultAssignmentTtlSeconds)).toNat

/-- The clock is read between these instants, the lease lasts to the later one, and
checkpoints can be written. -/
structure InTime (d : Deployment F) (job : PersistedTrainingJobRecord) (v : Visit F)
    (time finish : ℕ) : Prop where
  begins : time ≤ v.asking.now
  asking : v.asking.now < finish
  answering : ∀ i, (v.answering i).now < finish
  lasts : finish ≤ v.asking.now + leaseMillis d job
  deadline : v.asking.now + leaseMillis d job < yearsEnd
  inClock : finish < clockEnd
  written : ∀ i, (v.answering i).draw.persistence = .written

/-- The job is the active one, in this round. -/
structure OnRound (x : StateStore) (t m : String) (job : PersistedTrainingJobRecord) (r done : ℤ)
    (active : PersistedTrainingJobRecord) : Prop where
  found : getActiveTrainingJob x t m = some active
  jobId : active.jobId = job.jobId
  targetRounds : active.targetRounds = job.targetRounds
  minClientsPerRound : active.minClientsPerRound = job.minClientsPerRound
  assignmentTtlSeconds : active.assignmentTtlSeconds = job.assignmentTtlSeconds
  currentRound : active.currentRound = r
  completedRounds : active.completedRounds = done

def threshold (d : Deployment F) (job : PersistedTrainingJobRecord) : ℕ :=
  max 1 (requiredClients d.config (some job))

theorem OnRound.sameJobs {x y : StateStore} {t m : String} {job active : PersistedTrainingJobRecord}
    {r done : ℤ} (h : OnRound x t m job r done active) (hjobs : y.trainingJobs = x.trainingJobs) :
    OnRound y t m job r done active := by
  refine ⟨?_, h.jobId, h.targetRounds, h.minClientsPerRound, h.assignmentTtlSeconds,
    h.currentRound, h.completedRounds⟩
  rw [← h.found, getActiveTrainingJob, getActiveTrainingJob, hjobs]

/-- The world in which the trainer has its lease, and the lease. -/
structure LeasedTo (d : Deployment F) (t m : String) (job : PersistedTrainingJobRecord)
    (time : ℕ) (r done : ℤ) (v : Visit F) (w w' : World F) (leased : LeasedAssignment) : Prop where
  orderly : Orderly w'.store
  active : OnRound w'.store t m job r done leased.job
  lease : Leased w'.store job.jobId time leased.assignment (v.asking.now + leaseMillis d job)
  issuedTo : IssuedTo leased.assignment t m v.trainer
  jobId : leased.assignment.jobId = job.jobId
  roundIndex : leased.assignment.roundIndex = r
  composed : ComposedAssignment leased.assignment
  issuedAt : leased.assignment.issuedAt = currentTimestamp v.asking.now
  version : leased.assignment.baseModelVersion = getActiveModelVersion w'.store t m
  buffer : w'.buffer = w.buffer
  registry : w'.registry = w.registry
  crypto : w'.crypto = w.crypto

/-- The world in which the submission of the trainer reaches the buffer. -/
structure AtBuffer (d : Deployment F) (t m : String) (job : PersistedTrainingJobRecord)
    (time : ℕ) (r done : ℤ) (v : Visit F) (w w' : World F) (leased : LeasedAssignment) : Prop where
  orderly : Orderly w'.store
  active : OnRound w'.store t m job r done leased.job
  lease : Leased w'.store job.jobId time leased.assignment (v.asking.now + leaseMillis d job)
  buffer : w'.buffer = w.buffer
  parties : SameParties w w'

theorem LeasedTo.startSubmitWeights {t m : String} {job : PersistedTrainingJobRecord} {time : ℕ}
    {r done : ℤ} {v : Visit F} {w w' : World F} {leased : LeasedAssignment}
    (h : LeasedTo d t m job time r done v w w' leased)
    (hregistered : rejectsTrainingConfig w.registry ⟨t, m, v.trainer.clientId⟩
      v.trainer.peer = false)
    {q : SubmitWeightsRequest} (hq : Answers q t m v.trainer leased.assignment) :
    startSubmitWeights (F := F) w'.registry q v.trainer.peer = .modelVersion := by
  simp only [rejectsTrainingConfig, Bool.or_eq_false_iff, Bool.not_eq_false'] at hregistered
  have hknown : submitIsRegistered w'.registry q v.trainer.peer = true := by
    rw [submitIsRegistered, h.registry, hq.tenantId, hq.modelId, hq.clientId]
    exact hregistered.2
  rw [Services.startSubmitWeights, if_neg (not_not.mpr hq.passes), if_pos hknown]

theorem AtBuffer.accepted {t m : String} {job : PersistedTrainingJobRecord} {time finish : ℕ}
    {r done : ℤ} {v : Visit F} {w w₁ w₂ w₃ : World F} {leased : LeasedAssignment}
    (hleased : LeasedTo d t m job time r done v w w₁ leased)
    (h : AtBuffer d t m job time r done v w w₂ leased) {q : SubmitWeightsRequest}
    (hq : Answers q t m v.trainer leased.assignment) (hv : InTime d job v time finish)
    (hsame : jobRecords w₃.store = jobRecords w₂.store) {now : ℕ} (hnow : now < finish) :
    (acceptance w₃.store q now).value = .ok () ∧
      Settled job.jobId finish (acceptance w₃.store q now).store.assignments ∧
      Orderly (acceptance w₃.store q now).store ∧
      OnRound (acceptance w₃.store q now).store t m job r done leased.job := by
  obtain ⟨hjobs, hassignments⟩ := Prod.mk.inj hsame
  have hactive := h.active.sameJobs hjobs
  have hlease := h.lease.same hassignments
  rw [← hactive.jobId] at hlease
  have hissued : leased.assignment.issuedAt < currentTimestamp finish := by
    rw [hleased.issuedAt]
    have hend : finish < yearsEnd := hv.inClock.trans_le clockEnd_le
    exact currentTimestamp_strictMono (hv.asking.trans hend) hend hv.asking
  obtain ⟨hok, hsettled⟩ := hlease.accepted hq hleased.issuedTo hactive.found
    (hleased.jobId.trans hactive.jobId.symm) (hnow.trans_le hv.lasts) hleased.composed hissued
    (hv.begins.trans hv.asking.le) hv.inClock
  rw [hactive.jobId] at hsettled
  refine ⟨hok, hsettled, ?_, ?_⟩
  · exact ((h.orderly.move (.of_jobRecords hsame)).move (accept_move _ _ _ _ _ _ _ _ _))
  · exact hactive.sameJobs (accept_jobs _ _ _ _ _ _ _ _ _)

theorem OnRound.requiredClients {x : StateStore} {t m : String}
    {job active : PersistedTrainingJobRecord} {r done : ℤ} (h : OnRound x t m job r done active)
    (cfg : Config F) :
    requiredClients cfg (some active) = requiredClients cfg (some job) := by
  simp only [Services.requiredClients, h.minClientsPerRound]

theorem submission_round {t m : String} {job active : PersistedTrainingJobRecord} {x : StateStore}
    {r done : ℤ} (h : OnRound x t m job r done active) {q : SubmitWeightsRequest} {c : Trainer}
    {lease : PersistedAssignmentLease} (hq : Answers q t m c lease) (hr : lease.roundIndex = r)
    (weights : List F) :
    roundKey (submission d.config q (some active) weights).tenantId
      (submission d.config q (some active) weights).modelId
      (submission d.config q (some active) weights).round = roundKey t m r ∧
    max 1 (submission d.config q (some active) weights).requiredClients = threshold d job := by
  constructor
  · simp only [submission, hq.tenantId, hq.modelId, hq.roundIndex, hr, roundKey_normalize]
  · rw [threshold, ← h.requiredClients]
    rfl

theorem threshold_pos (d : Deployment F) (job : PersistedTrainingJobRecord) :
    0 < threshold d job := Nat.lt_of_lt_of_le Nat.one_pos (le_max_left _ _)

variable [FloatArith F]

/-- A trainer that may ask for its configuration, and that answers a lease with a
request for it which opens to well-formed weights. -/
structure Honest (d : Deployment F) (w : World F) (t m : String) (dimension : ℕ) (c : Trainer) :
    Prop where
  registered : rejectsTrainingConfig w.registry ⟨t, m, c.clientId⟩ c.peer = false
  answers : ∀ lease : LeasedAssignment, IssuedTo lease.assignment t m c →
    1 ≤ lease.assignment.roundIndex → Answers (c.request lease) t m c lease.assignment ∧
      ∃ weights, decryptSubmission d.primitives w.crypto (c.request lease) c.peer = .ok weights ∧
        wellFormed dimension (clipWeights weights d.config.clipNorm) = true

theorem Honest.same {w w' : World F} {t m : String} {dimension : ℕ} {c : Trainer}
    (h : Honest d w t m dimension c) (hsame : SameParties w w') : Honest d w' t m dimension c where
  registered := by
    rw [← h.registered]
    simp only [rejectsTrainingConfig, isRegisteredForPeer_eq, hsame.bindings]
  answers := by
    intro lease hto hround
    rw [hsame.crypto]
    exact h.answers lease hto hround

/-- The round of the job is open and holds well-formed vectors of these clients, its
later rounds are open and empty, and no lease of the job is alive. -/
structure Collecting (t m : String) (job : PersistedTrainingJobRecord) (dimension time : ℕ)
    (r done : ℤ) (taken : List String) (w : World F) : Prop where
  orderly : Orderly w.store
  named : job.jobId ≠ ""
  unfinished : 0 < job.targetRounds ∧ done < job.targetRounds
  positive : 1 ≤ r
  active : ∃ active, OnRound w.store t m job r done active
  settled : Settled job.jobId time w.store.assignments
  isOpen : roundKey t m r ∉ w.buffer.completedRounds
  pending : (submissions w.buffer (roundKey t m r)).keys = taken
  formed : ∀ entry ∈ (submissions w.buffer (roundKey t m r)).entries,
    wellFormed dimension entry.2 = true
  ahead : ∀ r', r < r' → r' < r + (job.targetRounds - done) →
    roundKey t m r' ∉ w.buffer.completedRounds ∧ submissions w.buffer (roundKey t m r') = ∅

theorem OnRound.running {x y : StateStore} {t m : String} {job active : PersistedTrainingJobRecord}
    {r done : ℤ} (h : OnRound x t m job r done active) (now : String)
    (hfound : getActiveTrainingJob y t m = some (runningJob now active)) :
    OnRound y t m job r done (runningJob now active) := by
  have hterms : (runningJob now active).jobId = active.jobId ∧
      (runningJob now active).targetRounds = active.targetRounds ∧
      (runningJob now active).minClientsPerRound = active.minClientsPerRound ∧
      (runningJob now active).assignmentTtlSeconds = active.assignmentTtlSeconds ∧
      (runningJob now active).currentRound = active.currentRound ∧
      (runningJob now active).completedRounds = active.completedRounds := by
    unfold runningJob
    split
    · exact ⟨rfl, rfl, rfl, rfl, rfl, rfl⟩
    · exact ⟨rfl, rfl, rfl, rfl, rfl, rfl⟩
  obtain ⟨hid, htarget, hmin, httl, hround, hdone⟩ := hterms
  exact ⟨hfound, hid.trans h.jobId, htarget.trans h.targetRounds, hmin.trans h.minClientsPerRound,
    httl.trans h.assignmentTtlSeconds, hround.trans h.currentRound, hdone.trans h.completedRounds⟩

theorem OnRound.scope {x : StateStore} {t m t' m' : String}
    {job active : PersistedTrainingJobRecord} {r done : ℤ} (h : OnRound x t m job r done active)
    (htenant : normalizeTenant t' = normalizeTenant t)
    (hmodel : normalizeModel m' = normalizeModel m) :
    OnRound x t' m' job r done active := by
  refine ⟨?_, h.jobId, h.targetRounds, h.minClientsPerRound, h.assignmentTtlSeconds,
    h.currentRound, h.completedRounds⟩
  rw [← h.found, getActiveTrainingJob, getActiveTrainingJob, htenant, hmodel]

theorem lease_active_job {x : StateStore} (ho : Orderly x) {t m c : String} {v n ttl : ℤ} {now : ℕ}
    {leased : LeasedAssignment}
    (h : (leaseTrainingAssignment x t m c v n ttl now).value = some leased) :
    getActiveTrainingJob (leaseTrainingAssignment x t m c v n ttl now).store t m =
      some leased.job := by
  have hgiven := lease_givenTo h
  have hactive : isActiveJobOf (normalizeTenant t) (normalizeModel m) leased.job = true :=
    isActiveJobOf_iff.mpr
      ⟨hgiven.jobOf.tenantId, hgiven.jobOf.modelId, ReissuedLeases.lease_active h⟩
  exact (ho.move (lease_move x t m c v n ttl now)).active_unique hgiven.job hactive

theorem getActive_normalize (x : StateStore) (t m : String) :
    getActiveTrainingJob x (normalizeTenant t) (normalizeModel m) = getActiveTrainingJob x t m := by
  simp [getActiveTrainingJob]

theorem serveTrainingConfig_leases {t m : String} {job : PersistedTrainingJobRecord}
    {dimension time finish : ℕ} {r done : ℤ} {taken : List String} {w : World F} {v : Visit F}
    (h : Collecting t m job dimension time r done taken w)
    (hregistered : rejectsTrainingConfig w.registry ⟨t, m, v.trainer.clientId⟩
      v.trainer.peer = false)
    (hv : InTime d job v time finish) :
    ∃ leased, (serveTrainingConfig d w ⟨t, m, v.trainer.clientId⟩ v.trainer.peer
        v.asking.now).2.bind (·.lease) = some leased ∧
      LeasedTo d t m job time r done v w (serveTrainingConfig d w ⟨t, m, v.trainer.clientId⟩
        v.trainer.peer v.asking.now).1 leased := by
  obtain ⟨active, hactive⟩ := h.active
  have hclock : v.asking.now < clockEnd := hv.asking.trans hv.inClock
  have hopen : ¬ (active.targetRounds > 0 ∧ active.completedRounds ≥ active.targetRounds) := by
    have hleft := h.unfinished.2
    rw [hactive.targetRounds, hactive.completedRounds]
    omega
  have hsettled := h.settled
  rw [← hactive.jobId] at hsettled
  have hfound : getActiveTrainingJob w.store (normalizeTenant t) (normalizeModel m) = some active :=
    (getActive_normalize _ _ _).trans hactive.found
  obtain ⟨⟨dataset, hvalue⟩, hassignments⟩ := lease_granted hfound hopen hsettled hv.begins hclock
    v.trainer.clientId (getActiveModelVersion w.store (normalizeTenant t) (normalizeModel m))
    d.config.requiredClients d.config.defaultAssignmentTtlSeconds
  have hmove := lease_move w.store (normalizeTenant t) (normalizeModel m) v.trainer.clientId
    (getActiveModelVersion w.store (normalizeTenant t) (normalizeModel m)) d.config.requiredClients
    d.config.defaultAssignmentTtlSeconds v.asking.now
  have hjob := lease_active_job h.orderly hvalue
  have hmodels := (leaseTrainingAssignment_frame w.store (normalizeTenant t) (normalizeModel m)
    v.trainer.clientId (getActiveModelVersion w.store (normalizeTenant t) (normalizeModel m))
    d.config.requiredClients d.config.defaultAssignmentTtlSeconds v.asking.now).2
  have hswept := hsettled.sweep (currentTimestamp v.asking.now)
  have hmillis : v.asking.now + leaseMillis d job = v.asking.now + 1000 * (max 0
      (if active.assignmentTtlSeconds > 0 then active.assignmentTtlSeconds
        else d.config.defaultAssignmentTtlSeconds)).toNat := by
    rw [hactive.assignmentTtlSeconds, leaseMillis]
  unfold serveTrainingConfig
  rw [hregistered, if_neg Bool.false_ne_true]
  dsimp only
  rw [hvalue]
  refine ⟨_, rfl, ?_⟩
  constructor
  · exact h.orderly.move hmove
  · exact hactive.running _ ((getActive_normalize _ _ _).symm.trans hjob)
  · refine ⟨⟨_, hassignments, ?_, ?_⟩, rfl, ?_, hv.deadline⟩
    · rw [← hactive.jobId]
      exact hswept
    · exact hswept.unnamed hv.begins hclock _
    · rw [hmillis]
      rfl
  · refine ⟨normalizeTenant_idem t, normalizeModel_idem m, rfl, ?_, ?_⟩
    · show active.jobId ≠ ""
      rw [hactive.jobId]
      exact h.named
    · intro hempty
      have hlist := congrArg String.toList hempty
      simp [newLease] at hlist
  · exact hactive.jobId
  · show max 1 active.currentRound = r
    rw [hactive.currentRound]
    exact max_eq_right h.positive
  · exact newLease_composed _ _ _ _ _ _ hclock
  · rfl
  · rw [← activeVersion_normalize ⟨normalizeTenant_idem t, normalizeModel_idem m⟩]
    exact (activeVersion_of_models hmodels _ _).symm
  · rfl
  · rfl
  · rfl

theorem LeasedTo.to_buffer {t m : String} {job : PersistedTrainingJobRecord} {time finish : ℕ}
    {r done : ℤ} {v : Visit F} {w w' : World F} {leased : LeasedAssignment}
    (h : LeasedTo d t m job time r done v w w' leased)
    (hregistered : rejectsTrainingConfig w.registry ⟨t, m, v.trainer.clientId⟩
      v.trainer.peer = false)
    {q : SubmitWeightsRequest} (hq : Answers q t m v.trainer leased.assignment) {weights : List F}
    (hopens : decryptSubmission d.primitives w.crypto q v.trainer.peer = .ok weights)
    (hv : InTime d job v time finish) (hisOpen : roundKey t m r ∉ w.buffer.completedRounds)
    (hnew : v.trainer.clientId ∉ submissions w.buffer (roundKey t m r)) :
    ∃ w'', AtBuffer d t m job time r done v w w'' leased ∧
      serveSubmitWeights d w' q v.trainer.peer v.answering =
        handle d q v.trainer.peer v.answering 7 8 w'' (.add (some leased.job) weights) := by
  have hinTime : ∀ i, (v.answering i).now < v.asking.now + leaseMillis d job :=
    fun i => (hv.answering i).trans_le hv.lasts
  have hlease := h.lease
  rw [← h.active.jobId] at hlease
  have hvalid := hlease.validates hq h.issuedTo h.active.found (h.jobId.trans h.active.jobId.symm)
    (hinTime 2)
  have hkey : requestKey q = roundKey t m r := by
    rw [requestKey, hq.tenantId, hq.modelId, hq.roundIndex, h.roundIndex, roundKey_normalize]
  have hversion : q.baseModelVersion = getActiveModelVersion w'.store (normalizeTenant q.tenantId)
      (normalizeModel q.modelId) := by
    rw [hq.baseModelVersion, h.version, hq.tenantId, hq.modelId]
    exact (activeVersion_normalize ⟨normalizeTenant_idem t, normalizeModel_idem m⟩).symm
  have harrived : Arrived w' (beforeAdd w' q v.answering) (currentTimestamp (v.answering 2).now) :=
    beforeAdd_arrived (congrArg Outcome.store hvalid)
  have hmove : Move w'.store (beforeAdd w' q v.answering).store := by
    apply Move.kept
    · rw [harrived.jobs]
      exact jobsKept_refl _
    · rw [harrived.assignments]
      exact forall₂_map _ (lapse_kept _) _
  refine ⟨beforeAdd w' q v.answering, ?_, ?_⟩
  · constructor
    · exact h.orderly.move hmove
    · exact h.active.sameJobs harrived.jobs
    · apply (h.lease.sweep (hinTime 2)).same
      rw [harrived.assignments, (expireAssignmentsLocked_frame _ _).2.1]
    · exact harrived.buffer.trans h.buffer
    · constructor
      · exact harrived.crypto.trans h.crypto
      · intro key
        rw [harrived.bindings key, h.registry]
  · rw [serveSubmitWeights, h.startSubmitWeights hregistered hq]
    apply handle_to_add hversion
    · rw [hq.activeJob, h.active.found]
    · rw [hvalid]
    · rw [hkey, h.buffer]
      exact hisOpen
    · rw [hkey, h.buffer, hq.clientId]
      exact hnew
    · rw [h.crypto]
      exact hopens

theorem Collecting.client_new {t m : String} {job : PersistedTrainingJobRecord}
    {dimension time : ℕ} {r done : ℤ} {taken : List String} {w : World F} {c : String}
    (h : Collecting t m job dimension time r done taken w) (hc : c ∉ taken) :
    c ∉ submissions w.buffer (roundKey t m r) := by
  intro hmem
  rw [AList.mem_keys, h.pending] at hmem
  exact hc hmem

theorem Collecting.count {t m : String} {job : PersistedTrainingJobRecord} {dimension time : ℕ}
    {r done : ℤ} {taken : List String} {w : World F}
    (h : Collecting t m job dimension time r done taken w) :
    (submissions w.buffer (roundKey t m r)).entries.length = taken.length := by
  rw [← h.pending, AList.keys, List.keys, List.length_map]

theorem visit_of {t m : String} {w : World F} {v : Visit F} {leased : LeasedAssignment}
    {served : World F × SubmitWeightsResponse}
    (hgiven : (serveTrainingConfig d w ⟨t, m, v.trainer.clientId⟩ v.trainer.peer
      v.asking.now).2.bind (·.lease) = some leased)
    (hserved : serveSubmitWeights d (serveTrainingConfig d w ⟨t, m, v.trainer.clientId⟩
      v.trainer.peer v.asking.now).1 (v.trainer.request leased) v.trainer.peer v.answering =
        some served) (haccepted : served.2.accepted = true) : visit d t m w v = some served.1 := by
  unfold visit
  dsimp only
  rw [hgiven, Option.bind_some, hserved, Option.bind_some, if_pos haccepted]

theorem visit_collects {t m : String} {job : PersistedTrainingJobRecord}
    {dimension time finish : ℕ} {r done : ℤ} {taken : List String} {w : World F} {v : Visit F}
    (h : Collecting t m job dimension time r done taken w)
    (hc : Honest d w t m dimension v.trainer) (hv : InTime d job v time finish)
    (hnew : v.trainer.clientId ∉ taken) (hfew : taken.length + 1 < threshold d job) :
    ∃ w', visit d t m w v = some w' ∧ SameParties w w' ∧
      w'.buffer.completedRounds = w.buffer.completedRounds ∧
      Collecting t m job dimension finish r done (v.trainer.clientId :: taken) w' := by
  obtain ⟨leased, hgiven, hleased⟩ := serveTrainingConfig_leases h hc.registered hv
  obtain ⟨hq, weights, hopens, hformed⟩ := hc.answers leased hleased.issuedTo
    (by rw [hleased.roundIndex]; exact h.positive)
  obtain ⟨w₂, hbuffer, hserved⟩ := hleased.to_buffer hc.registered hq hopens hv h.isOpen
    (h.client_new hnew)
  let q := v.trainer.request leased
  let sent := submission d.config q (some leased.job) weights
  obtain ⟨hkey, hrequired⟩ := submission_round (d := d) hbuffer.active hq hleased.roundIndex weights
  have hopen' : roundKey t m r ∉ w₂.buffer.completedRounds := by
    rw [hbuffer.buffer]
    exact h.isOpen
  have hnew' : v.trainer.clientId ∉ submissions w₂.buffer (roundKey t m r) := by
    rw [hbuffer.buffer]
    exact h.client_new hnew
  have hclient : sent.clientId = v.trainer.clientId := hq.clientId
  have hroundOpen : roundKey sent.tenantId sent.modelId sent.round ∉ w₂.buffer.completedRounds := by
    rw [hkey]
    exact hopen'
  have hsentNew : sent.clientId ∉ submissions w₂.buffer
      (roundKey sent.tenantId sent.modelId sent.round) := by
    rw [hkey, hclient]
    exact hnew'
  obtain ⟨outcome, hadd, haccepted, hwaiting⟩ := addWeight_waits d.primitives
    d.config.toAggregationConfig w₂.crypto w₂.files (v.answering 8).draw hroundOpen hsentNew
    (by rw [hkey, hrequired, hbuffer.buffer, h.count]; exact hfew)
  obtain ⟨hok, hsettled, horderly, hactive⟩ := hbuffer.accepted hleased hq hv rfl
    (hv.answering 9)
  obtain ⟨response, hyes, hhandled⟩ := handle_waits v.trainer.peer hadd haccepted hwaiting
    hok 4
  have hsub := submissions_insertSubmission w₂.buffer d.config.clipNorm
    (submission d.config q (some leased.job) weights)
  rw [hkey, hclient] at hsub
  have hown : (submissions (insertSubmission w₂.buffer d.config.clipNorm
      (submission d.config q (some leased.job) weights)) (roundKey t m r)).entries =
        ⟨v.trainer.clientId, clipWeights weights d.config.clipNorm⟩ ::
          (submissions w.buffer (roundKey t m r)).entries := by
    rw [hsub, if_pos rfl, hbuffer.buffer]
    exact entries_insert_fresh (h.client_new hnew) _
  refine ⟨_, visit_of hgiven (hserved.trans hhandled) hyes, ?_, ?_, ?_⟩
  · exact ⟨hbuffer.parties.crypto, hbuffer.parties.bindings⟩
  · exact congrArg (·.completedRounds) hbuffer.buffer
  · refine ⟨horderly, h.named, h.unfinished, h.positive, ⟨_, hactive⟩, hsettled, hopen', ?_, ?_, ?_⟩
    · show (submissions (insertSubmission _ _ _) _).keys = _
      rw [AList.keys, hown, List.keys_cons, ← h.pending]
      rfl
    · intro entry hentry
      have hmem : entry ∈ (submissions (insertSubmission w₂.buffer d.config.clipNorm
        (submission d.config q (some leased.job) weights)) (roundKey t m r)).entries := hentry
      rw [hown] at hmem
      rcases List.mem_cons.mp hmem with rfl | hold
      · exact hformed
      · exact h.formed entry hold
    · intro r' hlater hlast
      obtain ⟨hopen'', hempty⟩ := h.ahead r' hlater hlast
      have hne : roundKey t m r' ≠ roundKey t m r := by
        intro heq
        have := (roundKey_inj heq).2
        omega
      constructor
      · show roundKey t m r' ∉ w₂.buffer.completedRounds
        rw [hbuffer.buffer]
        exact hopen''
      · show submissions (insertSubmission _ _ _) _ = _
        rw [hsub, if_neg hne, hbuffer.buffer, hempty]

def Completed (x : StateStore) (job : PersistedTrainingJobRecord) : Prop :=
  ∃ j ∈ x.trainingJobs, j.jobId = job.jobId ∧ j.status = .completed ∧
    j.completedRounds = job.targetRounds

theorem advanceJob_of_last {now : String} {r v : ℤ} {active : PersistedTrainingJobRecord}
    (htarget : 0 < active.targetRounds) (hlast : active.completedRounds + 1 = active.targetRounds) :
    (advanceJob now r v active).status = .completed := by
  unfold advanceJob
  dsimp only
  rw [if_pos]
  omega

theorem advanceJob_of_more {now : String} {r v : ℤ} {active : PersistedTrainingJobRecord}
    (hmore : active.completedRounds + 1 < active.targetRounds) :
    (advanceJob now r v active).status = .running := by
  unfold advanceJob
  dsimp only
  rw [if_neg]
  omega

theorem OnRound.advance {x : StateStore} {t m : String} {job active : PersistedTrainingJobRecord}
    {r done : ℤ} (h : OnRound x t m job r done active) (ho : Orderly x)
    (htarget : 0 < job.targetRounds) (v : ℤ) (now : ℕ) :
    (done + 1 = job.targetRounds →
      Completed (advanceTrainingJobRound x t m r v now).store job) ∧
    (done + 1 < job.targetRounds → OnRound (advanceTrainingJobRound x t m r v now).store t m job
      (r + 1) (done + 1) (advanceJob (currentTimestamp now) r v active)) := by
  have hmem := advance_mem h.found r v now
  obtain ⟨-, htenant, hmodel, -⟩ := getActive_mem h.found
  constructor
  · intro hlast
    refine ⟨_, hmem, h.jobId, ?_, ?_⟩
    · apply advanceJob_of_last
      · rw [h.targetRounds]
        exact htarget
      · rw [h.completedRounds, h.targetRounds, hlast]
    · show active.completedRounds + 1 = _
      rw [h.completedRounds, hlast]
  · intro hmore
    have hrunning : (advanceJob (currentTimestamp now) r v active).status = .running := by
      apply advanceJob_of_more
      rw [h.completedRounds, h.targetRounds]
      exact hmore
    refine ⟨?_, h.jobId, h.targetRounds, h.minClientsPerRound, h.assignmentTtlSeconds, rfl, ?_⟩
    · apply (ho.advance t m r v now).active_unique hmem
      rw [isActiveJobOf_iff, hrunning]
      exact ⟨htenant, hmodel, rfl⟩
    · show active.completedRounds + 1 = _
      rw [h.completedRounds]

theorem visit_completes {t m : String} {job : PersistedTrainingJobRecord}
    {dimension time finish : ℕ} {r done : ℤ} {taken : List String} {w : World F} {v : Visit F}
    (h : Collecting t m job dimension time r done taken w)
    (hc : Honest d w t m dimension v.trainer) (hv : InTime d job v time finish)
    (hnew : v.trainer.clientId ∉ taken) (henough : taken.length + 1 = threshold d job) :
    ∃ w', visit d t m w v = some w' ∧ SameParties w w' ∧
      w'.buffer.completedRounds = insert (roundKey t m r) w.buffer.completedRounds ∧
      (done + 1 = job.targetRounds → Completed w'.store job) ∧
      (done + 1 < job.targetRounds →
        Collecting t m job dimension finish (r + 1) (done + 1) [] w') := by
  obtain ⟨leased, hgiven, hleased⟩ := serveTrainingConfig_leases h hc.registered hv
  obtain ⟨hq, weights, hopens, hformed⟩ := hc.answers leased hleased.issuedTo
    (by rw [hleased.roundIndex]; exact h.positive)
  obtain ⟨w₂, hbuffer, hserved⟩ := hleased.to_buffer hc.registered hq hopens hv h.isOpen
    (h.client_new hnew)
  obtain ⟨hkey, hrequired⟩ := submission_round (d := d) hbuffer.active hq hleased.roundIndex weights
  let sent := submission d.config (v.trainer.request leased) (some leased.job) weights
  have hclient : sent.clientId = v.trainer.clientId := hq.clientId
  have hroundOpen : roundKey sent.tenantId sent.modelId sent.round ∉ w₂.buffer.completedRounds := by
    rw [hkey, hbuffer.buffer]
    exact h.isOpen
  have hsentNew : sent.clientId ∉ submissions w₂.buffer
      (roundKey sent.tenantId sent.modelId sent.round) := by
    rw [hkey, hclient, hbuffer.buffer]
    exact h.client_new hnew
  obtain ⟨b, files, p, hadd, hcompleted, hothers⟩ := addWeight_prepares d.primitives w₂.crypto
    w₂.files hroundOpen hsentNew (by rw [hkey, hrequired, hbuffer.buffer, h.count, henough])
    (by rw [hkey, hbuffer.buffer]; exact h.formed) hformed (hv.written 8)
  rw [hkey] at hothers
  have hrecorded : jobRecords (published d { w₂ with buffer := b, files := files }
      (v.trainer.request leased) (v.answering 10).now leased.job p).store = jobRecords w₂.store :=
    (recordAggregatedModel_frame w₂.store
      (normalizeTenant (v.trainer.request leased).tenantId)
      (normalizeModel (v.trainer.request leased).modelId) (v.trainer.request leased).roundIndex
      p.checkpointPath d.config.aggregationStrategy w₂.crypto.activeKeyVersion p.clientCount
      p.result.length (v.answering 10).now).1
  obtain ⟨hok, hsettled, horderly, hactive⟩ := hbuffer.accepted hleased hq hv hrecorded
    (hv.answering 12)
  obtain ⟨version, response, hyes, hhandled⟩ := handle_completes v.trainer.peer hadd hok 0
  have hround : (v.trainer.request leased).roundIndex = r := hq.roundIndex.trans hleased.roundIndex
  have hpublished : insert (roundKey (normalizeTenant (v.trainer.request leased).tenantId)
      (normalizeModel (v.trainer.request leased).modelId) (v.trainer.request leased).roundIndex)
        b.completedRounds = insert (roundKey t m r) w.buffer.completedRounds := by
    rw [hq.tenantId, hq.modelId, hround, roundKey_normalize, hcompleted, hbuffer.buffer]
  have hscope := hactive.scope ((normalizeTenant_idem _).trans hq.tenantId)
    ((normalizeModel_idem _).trans hq.modelId)
  rw [hround] at hhandled
  obtain ⟨hlast, hmore⟩ := hscope.advance horderly h.unfinished.1 version
    (v.answering 13).now
  refine ⟨_, visit_of hgiven (hserved.trans hhandled) hyes, ?_, hpublished, hlast, ?_⟩
  · exact ⟨hbuffer.parties.crypto, hbuffer.parties.bindings⟩
  intro hleft
  obtain ⟨hnext, hempty⟩ := h.ahead (r + 1) (by omega) (by omega)
  have hother : ∀ r', r < r' → roundKey t m r' ≠ roundKey t m r := by
    intro r' hlater heq
    have := (roundKey_inj heq).2
    omega
  have hsub : ∀ r', r < r' → submissions b (roundKey t m r') =
      submissions w.buffer (roundKey t m r') := by
    intro r' hlater
    rw [hothers _ (hother r' hlater), hbuffer.buffer]
  have hopen : ∀ r', r < r' → roundKey t m r' ∉ w.buffer.completedRounds →
      roundKey t m r' ∉ insert (roundKey (normalizeTenant (v.trainer.request leased).tenantId)
        (normalizeModel (v.trainer.request leased).modelId) (v.trainer.request leased).roundIndex)
          b.completedRounds := by
    intro r' hlater hnot
    rw [hpublished, Finset.mem_insert, not_or]
    exact ⟨hother r' hlater, hnot⟩
  have hnone : submissions b (roundKey t m (r + 1)) = ∅ := (hsub _ (by omega)).trans hempty
  have hpositive := h.positive
  refine ⟨horderly.advance _ _ _ _ _, h.named, ⟨h.unfinished.1, hleft⟩, by omega,
    ⟨_, (hmore hleft).scope ?_ ?_⟩, ?_, hopen _ (by omega) hnext, ?_, ?_, ?_⟩
  · rw [normalizeTenant_idem, hq.tenantId]
  · rw [normalizeModel_idem, hq.modelId]
  · rw [World.after, (advance_some hscope.found r version _).2]
    exact hsettled.close _ _ _
  · show (submissions b _).keys = _
    rw [hnone]
    rfl
  · intro entry hentry
    have hmem : entry ∈ (submissions b (roundKey t m (r + 1))).entries := hentry
    rw [hnone] at hmem
    cases hmem
  · intro r' hlater hend
    obtain ⟨hnot, hempty'⟩ := h.ahead r' (by omega) (by omega)
    exact ⟨hopen r' (by omega) hnot, (hsub r' (by omega)).trans hempty'⟩

/-- The visits follow each other in time. -/
def InTurn (d : Deployment F) (job : PersistedTrainingJobRecord) : ℕ → List (Visit F) → Prop
  | _, [] => True
  | time, v::visits => ∃ finish, InTime d job v time finish ∧ InTurn d job finish visits

/-- With the clients which the round has, as many honest trainers as it waits for. -/
structure FillsRound (d : Deployment F) (w : World F) (t m : String) (dimension : ℕ)
    (job : PersistedTrainingJobRecord) (taken : List String) (visits : List (Visit F)) : Prop where
  count : taken.length + visits.length = threshold d job
  distinct : (visits.map (fun v => v.trainer.clientId)).Nodup
  others : ∀ v ∈ visits, v.trainer.clientId ∉ taken
  honest : ∀ v ∈ visits, Honest d w t m dimension v.trainer

theorem FillsRound.same {w w' : World F} {t m : String} {dimension : ℕ}
    {job : PersistedTrainingJobRecord} {taken : List String} {visits : List (Visit F)}
    (h : FillsRound d w t m dimension job taken visits) (hsame : SameParties w w') :
    FillsRound d w' t m dimension job taken visits :=
  ⟨h.count, h.distinct, h.others, fun v hv => (h.honest v hv).same hsame⟩

theorem round_completes {t m : String} {job : PersistedTrainingJobRecord} {dimension time : ℕ}
    {r done : ℤ} {taken : List String} {w : World F} {visits rest : List (Visit F)}
    (h : Collecting t m job dimension time r done taken w)
    (hfills : FillsRound d w t m dimension job taken visits) (hne : visits ≠ [])
    (hturn : InTurn d job time (visits ++ rest)) :
    ∃ w' time', visitAll d t m visits w = some w' ∧ SameParties w w' ∧ InTurn d job time' rest ∧
      w'.buffer.completedRounds = insert (roundKey t m r) w.buffer.completedRounds ∧
      (done + 1 = job.targetRounds → Completed w'.store job) ∧
      (done + 1 < job.targetRounds →
        Collecting t m job dimension time' (r + 1) (done + 1) [] w') := by
  induction visits generalizing taken w time with
  | nil => exact absurd rfl hne
  | cons v visits ih =>
    obtain ⟨finish, hv, hlater⟩ := hturn
    have hc := hfills.honest v List.mem_cons_self
    have hfirst := hfills.others v List.mem_cons_self
    have hdistinct := hfills.distinct
    have hcount := hfills.count
    rw [List.map_cons, List.nodup_cons] at hdistinct
    rw [List.length_cons] at hcount
    by_cases hlast : visits = []
    · subst hlast
      obtain ⟨w', hvisit, hsame, hcompleted, hdone, hmore⟩ := visit_completes h hc hv hfirst hcount
      refine ⟨w', finish, ?_, hsame, hlater, hcompleted, hdone, hmore⟩
      rw [visitAll, hvisit]
      rfl
    · have hpositive := List.length_pos_of_ne_nil hlast
      obtain ⟨w', hvisit, hsame, hkept, hcollecting⟩ := visit_collects h hc hv hfirst (by omega)
      have hfills' : FillsRound d w' t m dimension job (v.trainer.clientId :: taken) visits := by
        constructor
        · rw [List.length_cons]
          omega
        · exact hdistinct.2
        · intro v' hv' hmem
          rcases List.mem_cons.mp hmem with heq | hold
          · exact hdistinct.1 (heq ▸ List.mem_map_of_mem (f := fun v => v.trainer.clientId) hv')
          · exact hfills.others v' (List.mem_cons_of_mem _ hv') hold
        · intro v' hv'
          exact (hfills.honest v' (List.mem_cons_of_mem _ hv')).same hsame
      obtain ⟨w'', time', hrest, hsame', hturn', hcompleted, hdone⟩ := ih hcollecting hfills' hlast
        hlater
      rw [hkept] at hcompleted
      refine ⟨w'', time', ?_, hsame.trans hsame', hturn', hcompleted, hdone⟩
      rw [visitAll, hvisit, Option.bind_some, hrest]

theorem rounds_complete {t m : String} {job : PersistedTrainingJobRecord} {dimension time : ℕ}
    {r done : ℤ} {taken : List String} {w : World F} {first : List (Visit F)}
    {rounds : List (List (Visit F))} (h : Collecting t m job dimension time r done taken w)
    (hne : first ≠ []) (hfirst : FillsRound d w t m dimension job taken first)
    (hrounds : ∀ visits ∈ rounds, FillsRound d w t m dimension job [] visits)
    (hcount : done + 1 + rounds.length = job.targetRounds)
    (hturn : InTurn d job time (first ++ rounds.flatten)) :
    ∃ w', visitAll d t m (first ++ rounds.flatten) w = some w' ∧ Completed w'.store job ∧
      ∀ key, key ∈ w'.buffer.completedRounds ↔ key ∈ w.buffer.completedRounds ∨
        ∃ i ≤ rounds.length, key = roundKey t m (r + i) := by
  induction rounds generalizing w time r done taken first with
  | nil =>
    obtain ⟨w', time', hvisits, -, -, hcompleted, hlast, -⟩ := round_completes h hfirst hne hturn
    rw [List.length_nil, Nat.cast_zero, add_zero] at hcount
    rw [List.flatten_nil, List.append_nil]
    refine ⟨w', hvisits, hlast hcount, ?_⟩
    intro key
    rw [hcompleted, Finset.mem_insert, or_comm]
    apply or_congr_right
    constructor
    · intro hkey
      exact ⟨0, le_rfl, by simpa using hkey⟩
    · rintro ⟨i, hi, hkey⟩
      obtain rfl : i = 0 := Nat.le_zero.mp hi
      simpa using hkey
  | cons visits rounds ih =>
    obtain ⟨w', time', hvisits, hsame, hturn', hcompleted, -, hmore⟩ := round_completes h hfirst
      hne hturn
    rw [List.length_cons, Nat.cast_add, Nat.cast_one] at hcount
    have hsecond := (hrounds visits List.mem_cons_self).same hsame
    have hne' : visits ≠ [] := by
      intro hnil
      have hpositive := threshold_pos d job
      have hlength := hsecond.count
      rw [hnil, List.length_nil, List.length_nil] at hlength
      omega
    have hrounds' : ∀ visits' ∈ rounds, FillsRound d w' t m dimension job [] visits' :=
      fun visits' hvisits' => (hrounds visits' (List.mem_cons_of_mem _ hvisits')).same hsame
    rw [List.flatten_cons] at hturn'
    obtain ⟨w'', hrest, hdone, hkeys⟩ := ih (hmore (by omega)) hne' hsecond hrounds' (by omega)
      hturn'
    rw [List.flatten_cons, visitAll_append, hvisits, Option.bind_some]
    refine ⟨w'', hrest, hdone, ?_⟩
    intro key
    rw [hkeys, hcompleted, Finset.mem_insert, or_assoc, or_left_comm]
    apply or_congr_right
    constructor
    · rintro (hkey | ⟨i, hi, hkey⟩)
      · exact ⟨0, Nat.zero_le _, by simpa using hkey⟩
      · refine ⟨i + 1, Nat.succ_le_succ hi, ?_⟩
        rw [hkey]
        congr 1
        push_cast
        ring
    · rintro ⟨i, hi, hkey⟩
      cases i with
      | zero => exact .inl (by simpa using hkey)
      | succ i =>
        refine .inr ⟨i, Nat.le_of_succ_le_succ hi, ?_⟩
        rw [hkey]
        congr 1
        push_cast
        ring

theorem run_issued {start : Start} {s : Server F}
    (h : Reaches (Process.step d) (OnClock d) (Process.initial d start) s) :
    Issued s.world.store := by
  have hissued : IssuedServer s :=
    h.invariant (initial_issued d start) (fun _ _ _ hi ha hs => step_issuedServer hi ha hs)
  exact hissued.store

theorem composed_named {j : PersistedTrainingJobRecord} (h : ComposedJob j) : j.jobId ≠ "" := by
  intro hempty
  have hlist := congrArg String.toList (h.jobId.symm.trans hempty)
  simp [jobPrefix] at hlist

/-- All rounds which the job has left are open, and nothing was submitted for the later ones. -/
structure Ahead (b : WeightBuffer F) (t m : String) (job : PersistedTrainingJobRecord) : Prop where
  isOpen : ∀ r, job.currentRound ≤ r →
    r < job.currentRound + (job.targetRounds - job.completedRounds) →
    roundKey t m r ∉ b.completedRounds
  empty : ∀ r, job.currentRound < r →
    r < job.currentRound + (job.targetRounds - job.completedRounds) →
    submissions b (roundKey t m r) = ∅

/-- Every lease was issued before this time, and none of the job is alive at it. -/
structure AllLapsed (x : StateStore) (job : PersistedTrainingJobRecord) (time : ℕ) : Prop where
  issued : ∀ a ∈ x.assignments, a.issuedAt < currentTimestamp time
  ended : ∀ a ∈ x.assignments, a.jobId = job.jobId → a.status = .leased →
    a.expiresAt ≤ currentTimestamp time

theorem run_collecting {start : Start} {s : Server F}
    (h : Reaches (Process.step d) (OnClock d) (Process.initial d start) s) {t m : String}
    {job : PersistedTrainingJobRecord} (hjob : getActiveTrainingJob s.world.store t m = some job)
    {time dimension : ℕ} (hlapsed : AllLapsed s.world.store job time)
    (hahead : Ahead s.world.buffer t m job)
    (hformed : ∀ entry ∈ (submissions s.world.buffer (roundKey t m job.currentRound)).entries,
      wellFormed dimension entry.2 = true) :
    Collecting t m job dimension time job.currentRound job.completedRounds
      (submissions s.world.buffer (roundKey t m job.currentRound)).keys s.world := by
  obtain ⟨horderly, hunfinished⟩ := (run_inOrder h).store
  have hissued := run_issued h
  obtain ⟨hmem, htenant, hmodel, hactive⟩ := getActive_mem hjob
  have hleft := hunfinished job hmem hactive
  constructor
  · exact horderly
  · exact composed_named (hissued.jobs job hmem).toComposedJob
  · exact hleft
  · exact (ReissuedLeases.run_roundsFromOne h).store job hmem hactive
  · exact ⟨job, hjob, rfl, rfl, rfl, rfl, rfl, rfl⟩
  · intro a ha
    exact ⟨hissued.assignments a ha, hlapsed.issued a ha, hlapsed.ended a ha⟩
  · exact hahead.isOpen _ le_rfl (by omega)
  · rfl
  · exact hformed
  · intro r hlater hlast
    exact ⟨hahead.isOpen r hlater.le hlast, hahead.empty r hlater hlast⟩

/-- From every state of the server, however it came about: a job whose rounds are open
and whose leases have run out is completed by the visits of as many honest trainers as
its rounds wait for, in any order of theirs, and just its rounds are completed by them. -/
theorem job_completes (d : Deployment F) (start : Start) (s : Server F)
    (h : Reaches (Process.step d) (OnClock d) (Process.initial d start) s)
    (hidle : s.federated = none) {t m : String} {job : PersistedTrainingJobRecord}
    (hjob : getActiveTrainingJob s.world.store t m = some job) {time dimension : ℕ}
    (hlapsed : AllLapsed s.world.store job time) (hahead : Ahead s.world.buffer t m job)
    (hformed : ∀ entry ∈ (submissions s.world.buffer (roundKey t m job.currentRound)).entries,
      wellFormed dimension entry.2 = true)
    {first : List (Visit F)} {rounds : List (List (Visit F))} (hne : first ≠ [])
    (hfirst : FillsRound d s.world t m dimension job
      (submissions s.world.buffer (roundKey t m job.currentRound)).keys first)
    (hrounds : ∀ visits ∈ rounds, FillsRound d s.world t m dimension job [] visits)
    (hcount : job.completedRounds + 1 + rounds.length = job.targetRounds)
    (hturn : InTurn d job time (first ++ rounds.flatten)) :
    ∃ s', Reaches (Process.step d) Free s s' ∧ s'.federated = none ∧
      visitAll d t m (first ++ rounds.flatten) s.world = some s'.world ∧
      Completed s'.world.store job ∧
      ∀ key, key ∈ s'.world.buffer.completedRounds ↔ key ∈ s.world.buffer.completedRounds ∨
        ∃ i ≤ rounds.length, key = roundKey t m (job.currentRound + i) := by
  have hcollecting := run_collecting h hjob hlapsed hahead hformed
  obtain ⟨w, hvisits, hcompleted, hkeys⟩ := rounds_complete hcollecting hne hfirst hrounds hcount
    hturn
  obtain ⟨s', hreaches, rfl, hidle'⟩ := visitAll_reaches hidle hvisits
  exact ⟨s', hreaches, hidle', hvisits, hcompleted, hkeys⟩

def zeroTrainer (clientId : String) : Trainer where
  clientId := clientId
  peer := site
  request lease := { zeroSubmission clientId lease.assignment.roundIndex lease.assignment.jobId
    lease.assignment.assignmentId with baseModelVersion := lease.assignment.baseModelVersion }

def zeroVisit (clientId : String) (now : ℕ) : Visit Binary32 :=
  ⟨zeroTrainer clientId, calm now, fun _ => calm now⟩

theorem zeroTrainer_honest {w : World Binary32} {clientId : String}
    (hids : validateFederatedRequestIds "t" "m" clientId = "")
    (hregistered : rejectsTrainingConfig w.registry ⟨"t", "m", clientId⟩ site = false)
    (hsecret : w.crypto.payloadSecret = zeroKey.1) :
    Honest standardDeployment w "t" "m" 1 (zeroTrainer clientId) where
  registered := hregistered
  answers := by
    intro lease hto hround
    have hkey : deriveSubmitKey standInPrimitives w.crypto ((zeroTrainer clientId).request lease)
        site = .ok (Block.read 32 zeroKey.1) := by
      simp only [deriveSubmitKey, zeroTrainer, zeroSubmission, if_true, deriveSessionKey, hsecret]
      rfl
    refine ⟨⟨rfl, rfl, rfl, rfl, rfl, rfl, rfl, ?_⟩, [Arith.ofInt 0], ?_, by decide +kernel⟩
    · have hpositive : ¬ lease.assignment.roundIndex ≤ 0 := by omega
      simp [checkSubmitWeights, zeroTrainer, zeroSubmission, hids, hpositive, site]
    · show decryptSubmission standInPrimitives w.crypto ((zeroTrainer clientId).request lease)
        site = _
      rw [decryptSubmission, hkey, Except.bind]
      simp only [zeroTrainer, zeroSubmission]
      decide +kernel

def halfCollected : Server Binary32 :=
  (execTested (Process.step standardDeployment) isOnClock
    (twoClients ++ [addingDataset, creatingJob 2 2 1] ++ leasing "a" site 2 ++
      .submitWeights (zeroSubmission "a" 1 jobAt1 leaseAt2) site ::
      proceeds 11 2) (Process.initial standardDeployment firstStart)).get (by decide +kernel)

def halfJob : PersistedTrainingJobRecord :=
  (getActiveTrainingJob halfCollected.world.store "t" "m").get (by decide +kernel)

theorem zeroVisit_inTime (clientId : String) {now : ℕ} (hnow : now < 30000) :
    InTime standardDeployment halfJob (zeroVisit clientId now) now (now + 1) where
  begins := le_rfl
  asking := Nat.lt_succ_self now
  answering := fun _ => Nat.lt_succ_self now
  lasts := by
    have hmillis : leaseMillis standardDeployment halfJob = 30000 := by decide +kernel
    rw [hmillis]
    exact Nat.add_le_add_left (by decide) now
  deadline := by
    have hmillis : leaseMillis standardDeployment halfJob = 30000 := by decide +kernel
    have hclock : 60000 < clockEnd := by decide
    have hend := clockEnd_le
    show now + leaseMillis standardDeployment halfJob < yearsEnd
    omega
  inClock := by
    have hclock : 60000 < clockEnd := by decide
    omega
  written := fun _ => rfl

/-- The first of two rounds has one of its two clients; the other one and two more
visits complete the job. -/
theorem job_completes_half : ∃ s', Reaches (Process.step standardDeployment) Free halfCollected s' ∧
    Completed s'.world.store halfJob := by
  have hreaches : Reaches (Process.step standardDeployment) (OnClock standardDeployment)
      (Process.initial standardDeployment firstStart) halfCollected :=
    execTested_reaches isOnClock onClock_of_isOnClock _ (Option.some_get _).symm
  have hfound : getActiveTrainingJob halfCollected.world.store "t" "m" = some halfJob :=
    (Option.some_get _).symm
  have hjob : halfJob.currentRound = 1 ∧ halfJob.completedRounds = 0 ∧ halfJob.targetRounds = 2 ∧
      threshold standardDeployment halfJob = 2 := by decide +kernel
  obtain ⟨hround, hdone, htarget, hthreshold⟩ := hjob
  have hahead : Ahead halfCollected.world.buffer "t" "m" halfJob := by
    have hcompleted : halfCollected.world.buffer.completedRounds = ∅ := by decide +kernel
    constructor
    · intro r _ _
      rw [hcompleted]
      exact Finset.notMem_empty _
    · intro r hlater hlast
      obtain rfl : r = 2 := by omega
      apply AList.ext
      decide +kernel
  have hlapsed : AllLapsed halfCollected.world.store halfJob 3 :=
    ⟨by decide +kernel, by decide +kernel⟩
  have ha : Honest standardDeployment halfCollected.world "t" "m" 1 (zeroTrainer "a") :=
    zeroTrainer_honest (by decide +kernel) (by decide +kernel) (by decide +kernel)
  have hb : Honest standardDeployment halfCollected.world "t" "m" 1 (zeroTrainer "b") :=
    zeroTrainer_honest (by decide +kernel) (by decide +kernel) (by decide +kernel)
  have hformed : ∀ entry ∈ (submissions halfCollected.world.buffer
      (roundKey "t" "m" halfJob.currentRound)).entries, wellFormed 1 entry.2 = true := by
    decide +kernel
  have hkeys : (submissions halfCollected.world.buffer
      (roundKey "t" "m" halfJob.currentRound)).keys = ["a"] := by decide +kernel
  have hfirst : FillsRound standardDeployment halfCollected.world "t" "m" 1 halfJob
      (submissions halfCollected.world.buffer (roundKey "t" "m" halfJob.currentRound)).keys
        [zeroVisit "b" 3] := by
    rw [hkeys]
    exact ⟨hthreshold.symm, by decide, by decide, by simpa [zeroVisit] using hb⟩
  have hrounds : ∀ visits ∈ [[zeroVisit "a" 4, zeroVisit "b" 5]],
      FillsRound standardDeployment halfCollected.world "t" "m" 1 halfJob [] visits := by
    intro visits hvisits
    rw [List.mem_singleton.mp hvisits]
    exact ⟨hthreshold.symm, by decide, by decide, by simpa [zeroVisit] using ⟨ha, hb⟩⟩
  have hturn : InTurn standardDeployment halfJob 3
      ([zeroVisit "b" 3] ++ [[zeroVisit "a" 4, zeroVisit "b" 5]].flatten) :=
    ⟨4, zeroVisit_inTime "b" (by decide), 5, zeroVisit_inTime "a" (by decide), 6,
      zeroVisit_inTime "b" (by decide), trivial⟩
  obtain ⟨s', hreach, -, -, hcompleted, -⟩ := job_completes standardDeployment firstStart
    halfCollected hreaches (by decide +kernel) hfound hlapsed hahead hformed (List.cons_ne_nil _ _)
    hfirst hrounds (by rw [hdone, htarget]; rfl) hturn
  exact ⟨s', hreach, hcompleted⟩

end PqFl.JobCompletion
