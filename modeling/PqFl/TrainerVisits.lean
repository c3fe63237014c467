import PqFl.LeaseTimes
import PqFl.PendingSubmissions
import PqFl.RecordIdentifiers
import PqFl.ReissuedLeases
import PqFl.RoundCompletion
import PqFl.SubmissionTracking

/-!
# Visits of trainers

A trainer asks for its configuration and submits weights under the lease that
came with it. While nothing else happens on the federated service, the handlers
of both requests run to their answers; what they leave behind is computed here
for a trainer whose request is in order and arrives before its lease runs out.
-/

set_option autoImplicit false

namespace PqFl.TrainerVisits
open PqFl.Identifiers PqFl.Timestamps PqFl.StoreRecords PqFl.StateStore PqFl.ClientRegistry
open PqFl.Crypto PqFl.Aggregation PqFl.Buffer PqFl.Services PqFl.Process PqFl.Runs PqFl.ListUpdate
open PqFl.JobLedger PqFl.JobSteps PqFl.JobRuns PqFl.LiveLeases PqFl.LeaseLifecycle
open PqFl.RecordIdentifiers PqFl.ReissuedLeases PqFl.SubmissionTracking PqFl.PendingSubmissions
open PqFl.LeaseTimes PqFl.RoundCompletion

variable {F : Type} {d : Deployment F}

/-- The world in which a submission reaches the buffer. -/
def beforeAdd (w : World F) (q : SubmitWeightsRequest) (os : ℕ → Oracle F) : World F :=
  let w := w.after (validation w.store q (os 2).now)
  let w := { w with
    registry := updateLastActiveRound w.registry (normalizeTenant q.tenantId)
      (normalizeModel q.modelId) q.clientId q.roundIndex }
  let w := w.after (updateClientLastRound w.store (normalizeTenant q.tenantId)
    (normalizeModel q.modelId) q.clientId q.roundIndex)
  w.after (recordWeightSubmission w.store (normalizeTenant q.tenantId) (normalizeModel q.modelId)
    q.clientId q.roundIndex (os 7).now)

/-- What that does, apart from the audit log and the clients' last rounds. -/
structure Arrived (w w' : World F) (now : String) : Prop where
  jobs : w'.store.trainingJobs = w.store.trainingJobs
  assignments : w'.store.assignments = w.store.assignments.map (lapse now)
  models : w'.store.models = w.store.models
  bindings : ∀ key, boundIdentity w'.registry key = boundIdentity w.registry key
  buffer : w'.buffer = w.buffer
  crypto : w'.crypto = w.crypto
  files : w'.files = w.files

theorem beforeAdd_arrived {w : World F} {q : SubmitWeightsRequest} {os : ℕ → Oracle F}
    (hvalid : (validation w.store q (os 2).now).store =
      expireAssignmentsLocked w.store (currentTimestamp (os 2).now)) :
    Arrived w (beforeAdd w q os) (currentTimestamp (os 2).now) := by
  obtain ⟨hjobs, hleases, -, hmodels⟩ := expireAssignmentsLocked_frame w.store
    (currentTimestamp (os 2).now)
  let x := (validation w.store q (os 2).now).store
  let y := (updateClientLastRound x (normalizeTenant q.tenantId) (normalizeModel q.modelId)
    q.clientId q.roundIndex).store
  have hfirst := updateClientLastRound_frame x (normalizeTenant q.tenantId)
    (normalizeModel q.modelId) q.clientId q.roundIndex
  have hsecond := recordWeightSubmission_frame y (normalizeTenant q.tenantId)
    (normalizeModel q.modelId) q.clientId q.roundIndex (os 7).now
  have hrecords : jobRecords (beforeAdd w q os).store = jobRecords x := hsecond.1.trans hfirst.1
  obtain ⟨hjobs', hleases'⟩ := Prod.mk.inj hrecords
  refine ⟨?_, ?_, ?_, fun key => updateLastActiveRound_bindings _ _ _ _ _ key, rfl, rfl, rfl⟩
  · rw [hjobs', ← hjobs, ← hvalid]
  · rw [hleases', ← hleases, ← hvalid]
  · exact (hsecond.2.2.trans hfirst.2).trans ((congrArg (·.models) hvalid).trans hmodels)

variable [FloatArith F]

/-- `GetTrainingConfigCall::Proceed`; no answer where the call fails. -/
def serveTrainingConfig (d : Deployment F) (w : World F) (q : TrainingConfigRequest) (peer : Peer)
    (now : ℕ) : World F × Option TrainingConfigResponse :=
  if rejectsTrainingConfig w.registry q peer then (w, none)
  else
    let modelVersion := getActiveModelVersion w.store (normalizeTenant q.tenantId)
      (normalizeModel q.modelId)
    let leased := leaseTrainingAssignment w.store (normalizeTenant q.tenantId)
      (normalizeModel q.modelId) q.clientId modelVersion d.config.requiredClients
      d.config.defaultAssignmentTtlSeconds now
    (w.after leased,
      some (trainingConfig d.config modelVersion w.crypto.activeKeyVersion leased.value))

/-- A submission from one of its points; the handler reads an oracle at each step. -/
def handle (d : Deployment F) (q : SubmitWeightsRequest) (peer : Peer) (os : ℕ → Oracle F) :
    ℕ → ℕ → World F → SubmitPoint F → Option (World F × SubmitWeightsResponse)
  | 0, _, _, _ => none
  | fuel + 1, i, w, p =>
    match stepSubmitWeights d w q peer (os i) p with
    | (w', .inl p') => handle d q peer os fuel (i + 1) w' p'
    | (w', .inr response) => some (w', response)

/-- `SubmitWeightsCall::Proceed`, which answers after fifteen steps at most. -/
def serveSubmitWeights (d : Deployment F) (w : World F) (q : SubmitWeightsRequest) (peer : Peer)
    (os : ℕ → Oracle F) : Option (World F × SubmitWeightsResponse) :=
  handle d q peer os 15 0 w (startSubmitWeights w.registry q peer)

theorem handle_answers (q : SubmitWeightsRequest) (peer : Peer) (os : ℕ → Oracle F) {fuel : ℕ}
    {p : SubmitPoint F} (hfuel : 15 ≤ stage p + fuel) (i : ℕ) (w : World F) :
    (handle d q peer os fuel i w p).isSome = true := by
  induction fuel generalizing i w p with
  | zero =>
    have hbound : stage p ≤ 14 := by cases p <;> simp [stage]
    omega
  | succ fuel ih =>
    rw [handle]
    cases h : stepSubmitWeights d w q peer (os i) p with
    | mk w' next =>
      cases next with
      | inr response => rfl
      | inl p' =>
        apply ih
        have hlast : stage p ≠ 14 := by
          intro hlast
          cases p <;> cases hlast
          cases h
        have hbound : stage p ≤ 14 := by cases p <;> simp [stage]
        have hnext := next_stage (congrArg Prod.snd h)
        omega

theorem serveSubmitWeights_answers (w : World F) (q : SubmitWeightsRequest) (peer : Peer)
    (os : ℕ → Oracle F) : (serveSubmitWeights d w q peer os).isSome = true :=
  handle_answers q peer os (Nat.le_add_left 15 _) 0 w

theorem getTrainingConfig_steps {s : Server F} (hidle : s.federated = none)
    (q : TrainingConfigRequest) (peer : Peer) (o : Oracle F)
    (hpasses : rejectsTrainingConfig s.world.registry q peer = false) :
    exec (Process.step d) (.getTrainingConfig q peer :: List.replicate 4 (.proceed o)) s =
      some { s with world := (serveTrainingConfig d s.world q peer o.now).1 } := by
  have hstart : Process.step d s (.getTrainingConfig q peer) =
      some { s with federated := some (.trainingConfig q .modelVersion) } := by
    simp [Process.step, hidle, startTrainingConfig, hpasses]
  rw [exec, hstart, serveTrainingConfig, hpasses, if_neg Bool.false_ne_true]
  dsimp only
  rw [hidle]
  rfl

theorem handle_reaches {q : SubmitWeightsRequest} {peer : Peer} {os : ℕ → Oracle F} {fuel i n : ℕ}
    {s : Server F} {p : SubmitPoint F} {served : World F × SubmitWeightsResponse}
    (hcall : s.federated = some (.submitWeights q peer n p))
    (h : handle d q peer os fuel i s.world p = some served) :
    ∃ s', Reaches (Process.step d) Free s s' ∧ s'.world = served.1 ∧ s'.federated = none := by
  induction fuel generalizing i s p with
  | zero => cases h
  | succ fuel ih =>
    rw [handle] at h
    have hstep : Process.step d s (.proceed (os i)) =
        some (proceedSubmit d s q peer n (os i) p) := by
      simp only [Process.step, proceed, hcall]
    have hfirst : Reaches (Process.step d) Free s (proceedSubmit d s q peer n (os i) p) :=
      Reaches.start.next trivial hstep
    cases hnext : stepSubmitWeights d s.world q peer (os i) p with
    | mk w' next =>
      rw [hnext] at h
      have hworld : (proceedSubmit d s q peer n (os i) p).world = w' := by
        simp only [proceedSubmit, hnext]
      cases next with
      | inr response =>
        obtain rfl := Option.some.inj h
        refine ⟨_, hfirst, hworld, ?_⟩
        simp only [proceedSubmit, hnext]
      | inl p' =>
        have hgoes : (proceedSubmit d s q peer n (os i) p).federated =
            some (.submitWeights q peer n p') := by
          simp only [proceedSubmit, hnext]
        rw [← hworld] at h
        obtain ⟨s', hreach, hrest⟩ := ih hgoes h
        exact ⟨s', hfirst.trans hreach, hrest⟩

theorem submitWeights_reaches {s : Server F} (hidle : s.federated = none)
    {q : SubmitWeightsRequest} {peer : Peer} {os : ℕ → Oracle F}
    {served : World F × SubmitWeightsResponse}
    (h : serveSubmitWeights d s.world q peer os = some served) :
    ∃ s', Reaches (Process.step d) Free s s' ∧ s'.world = served.1 ∧ s'.federated = none := by
  have hstart : Process.step d s (.submitWeights q peer) = some (startSubmit s q peer) := by
    simp [Process.step, hidle]
  have hfirst : Reaches (Process.step d) Free s (startSubmit s q peer) :=
    Reaches.start.next trivial hstart
  have hserved : handle d q peer os 15 0 (startSubmit s q peer).world
      (startSubmitWeights s.world.registry q peer) = some served := h
  obtain ⟨s', hreach, hrest⟩ := handle_reaches (n := s.served) rfl hserved
  exact ⟨s', hfirst.trans hreach, hrest⟩

/-- A client with the request which it makes of a lease. -/
structure Trainer where
  clientId : String
  peer : Peer
  request : LeasedAssignment → SubmitWeightsRequest

structure Visit (F : Type) where
  trainer : Trainer
  asking : Oracle F
  answering : ℕ → Oracle F

def visit (d : Deployment F) (t m : String) (w : World F) (v : Visit F) : Option (World F) :=
  let configured := serveTrainingConfig d w ⟨t, m, v.trainer.clientId⟩ v.trainer.peer v.asking.now
  (configured.2.bind (·.lease)).bind (fun lease =>
    (serveSubmitWeights d configured.1 (v.trainer.request lease) v.trainer.peer v.answering).bind
      (fun served => if served.2.accepted then some served.1 else none))

def visitAll (d : Deployment F) (t m : String) : List (Visit F) → World F → Option (World F)
  | [], w => some w
  | v::visits, w => (visit d t m w v).bind (visitAll d t m visits)

theorem visitAll_append (t m : String) (visits visits' : List (Visit F)) (w : World F) :
    visitAll d t m (visits ++ visits') w =
      (visitAll d t m visits w).bind (visitAll d t m visits') := by
  induction visits generalizing w with
  | nil => rfl
  | cons v visits ih =>
    rw [List.cons_append, visitAll, visitAll, Option.bind_assoc]
    congr 1
    funext w'
    exact ih w'

theorem visit_reaches {t m : String} {s : Server F} (hidle : s.federated = none) {v : Visit F}
    {w : World F} (h : visit d t m s.world v = some w) :
    ∃ s', Reaches (Process.step d) Free s s' ∧ s'.world = w ∧ s'.federated = none := by
  unfold visit at h
  dsimp only at h
  obtain ⟨lease, hlease, hrest⟩ := Option.bind_eq_some_iff.mp h
  obtain ⟨served, hserved, haccepted⟩ := Option.bind_eq_some_iff.mp hrest
  split at haccepted
  swap
  · cases haccepted
  obtain rfl := Option.some.inj haccepted
  have hpasses : rejectsTrainingConfig s.world.registry ⟨t, m, v.trainer.clientId⟩
      v.trainer.peer = false := by
    by_contra hrejects
    rw [Bool.not_eq_false] at hrejects
    simp [serveTrainingConfig, hrejects] at hlease
  have hconfigured := exec_reaches _
    (getTrainingConfig_steps (d := d) hidle ⟨t, m, v.trainer.clientId⟩ v.trainer.peer v.asking
      hpasses)
  generalize hleased : { s with world := (serveTrainingConfig d s.world
    ⟨t, m, v.trainer.clientId⟩ v.trainer.peer v.asking.now).1 } = leasing at hconfigured
  have hworld : leasing.world = (serveTrainingConfig d s.world ⟨t, m, v.trainer.clientId⟩
    v.trainer.peer v.asking.now).1 := by rw [← hleased]
  rw [← hworld] at hserved
  have hidle' : leasing.federated = none := by rw [← hleased, hidle]
  obtain ⟨s', hreach, hrest⟩ := submitWeights_reaches hidle' hserved
  exact ⟨s', hconfigured.trans hreach, hrest⟩

theorem visitAll_reaches {t m : String} {s : Server F} (hidle : s.federated = none)
    {visits : List (Visit F)} {w : World F} (h : visitAll d t m visits s.world = some w) :
    ∃ s', Reaches (Process.step d) Free s s' ∧ s'.world = w ∧ s'.federated = none := by
  induction visits generalizing s with
  | nil =>
    obtain rfl := Option.some.inj h
    exact ⟨s, .start, rfl, hidle⟩
  | cons v visits ih =>
    obtain ⟨w', hvisit, hrest⟩ := Option.bind_eq_some_iff.mp h
    obtain ⟨s', hreach, rfl, hidle'⟩ := visit_reaches hidle hvisit
    obtain ⟨s'', hreach', hworld, hidle''⟩ := ih hidle' hrest
    exact ⟨s'', hreach.trans hreach', hworld, hidle''⟩

/-- A lease issued before a time, and over by then if it is one of the job. -/
structure SettledLease (jobId : String) (time : ℕ) (a : PersistedAssignmentLease) : Prop where
  composed : ComposedAssignment a
  issued : a.issuedAt < currentTimestamp time
  ended : a.jobId = jobId → a.status = .leased → a.expiresAt ≤ currentTimestamp time

theorem SettledLease.later {jobId : String} {time time' : ℕ} {a : PersistedAssignmentLease}
    (h : SettledLease jobId time a) (hle : time ≤ time') (hend : time' < clockEnd) :
    SettledLease jobId time' a where
  composed := h.composed
  issued := h.issued.trans_le (currentTimestamp_mono hle hend)
  ended hid hleased := (h.ended hid hleased).trans (currentTimestamp_mono hle hend)

theorem SettledLease.terms {jobId : String} {time : ℕ} {a a' : PersistedAssignmentLease}
    (h : SettledLease jobId time a) (hterms : SameTerms a a')
    (hleased : a'.status = .leased → a.status = .leased) : SettledLease jobId time a' where
  composed := h.composed.terms hterms
  issued := by
    rw [hterms.issuedAt]
    exact h.issued
  ended := by
    intro hid hstatus
    rw [hterms.expiresAt]
    exact h.ended (hterms.jobId.symm.trans hid) (hleased hstatus)

def Settled (jobId : String) (time : ℕ) (l : List PersistedAssignmentLease) : Prop :=
  ∀ a ∈ l, SettledLease jobId time a

theorem Settled.later {jobId : String} {time time' : ℕ} {l : List PersistedAssignmentLease}
    (h : Settled jobId time l) (hle : time ≤ time') (hend : time' < clockEnd) :
    Settled jobId time' l := fun a ha => (h a ha).later hle hend

theorem Settled.sweep {jobId : String} {time : ℕ} {l : List PersistedAssignmentLease}
    (h : Settled jobId time l) (now : String) : Settled jobId time (l.map (lapse now)) := by
  intro a ha
  obtain ⟨b, hb, rfl⟩ := List.mem_map.mp ha
  obtain ⟨hterms, hleased⟩ := lapse_terms now b
  exact (h b hb).terms hterms hleased

theorem Settled.close {jobId : String} {time : ℕ} {l : List PersistedAssignmentLease}
    (h : Settled jobId time l) (id : String) (r : ℤ) (now : String) :
    Settled jobId time (l.map (closeAssignment id r now)) := by
  intro a ha
  obtain ⟨b, hb, rfl⟩ := List.mem_map.mp ha
  exact (h b hb).terms (closeAssignment_quiet id r now b).terms
    (closeAssignment_kept id r now b).leased

theorem Settled.unnamed {jobId : String} {time now : ℕ} {l : List PersistedAssignmentLease}
    (h : Settled jobId time l) (hle : time ≤ now) (hnow : now < clockEnd) (names : String) :
    ∀ a ∈ l, a.assignmentId ≠ names ++ "::" ++ currentTimestamp now := by
  intro a ha hid
  have hissued := (h a ha).issued.trans_le (currentTimestamp_mono hle hnow)
  rw [((h a ha).composed.assignmentId_eq_iff hnow).mp hid |>.2] at hissued
  exact lt_irrefl _ hissued

theorem Settled.noneLive {jobId : String} {time now : ℕ} {l : List PersistedAssignmentLease}
    (h : Settled jobId time l) (hle : time ≤ now) (hnow : now < clockEnd) (round : ℤ) :
    ∀ a ∈ l, isLiveLease jobId round (currentTimestamp now) a = false := by
  intro a ha
  rw [Bool.eq_false_iff]
  intro hlive
  simp only [isLiveLease, Bool.and_eq_true, beq_iff_eq, decide_eq_true_eq] at hlive
  obtain ⟨⟨⟨hid, -⟩, hleased⟩, hlater⟩ := hlive
  have hover := (h a ha).ended hid hleased
  exact absurd (hover.trans (currentTimestamp_mono hle hnow)) (not_le.mpr hlater)

theorem roundCapacity_pos (job : PersistedTrainingJobRecord) (n : ℤ) : 0 < roundCapacity job n := by
  unfold roundCapacity
  split
  · assumption
  · omega

theorem lease_granted {x : StateStore} {t m : String} {job : PersistedTrainingJobRecord}
    (hjob : getActiveTrainingJob x t m = some job)
    (hopen : ¬ (job.targetRounds > 0 ∧ job.completedRounds ≥ job.targetRounds)) {time now : ℕ}
    (hsettled : Settled job.jobId time x.assignments) (hle : time ≤ now) (hnow : now < clockEnd)
    (c : String) (v n ttl : ℤ) :
    (∃ dataset, (leaseTrainingAssignment x t m c v n ttl now).value =
      some ⟨newLease job t m c v ttl now, runningJob (currentTimestamp now) job, dataset⟩) ∧
    (leaseTrainingAssignment x t m c v n ttl now).store.assignments =
      x.assignments.map (lapse (currentTimestamp now)) ++ [newLease job t m c v ttl now] := by
  have hnone := (hsettled.sweep (currentTimestamp now)).noneLive hle hnow (max 1 job.currentRound)
  have houtcome := lease_outcome x t m c v n ttl now
  generalize (leaseTrainingAssignment x t m c v n ttl now).value = value at houtcome ⊢
  generalize (leaseTrainingAssignment x t m c v n ttl now).store.assignments = l at houtcome ⊢
  cases houtcome with
  | refused hwhy =>
    have hfull := (hwhy job hjob hopen).2
    have hempty : (x.assignments.map (lapse (currentTimestamp now))).filter
        (isLiveLease job.jobId (max 1 job.currentRound) (currentTimestamp now)) = [] := by
      apply List.filter_eq_nil_iff.mpr
      intro a ha
      rw [hnone a ha]
      exact Bool.false_ne_true
    rw [hempty] at hfull
    exact absurd hfull (not_le.mpr (roundCapacity_pos job n))
  | again hjob' _ hlive =>
    obtain rfl := Option.some.inj (hjob.symm.trans hjob')
    have hfound := List.find?_some hlive
    simp only [isLiveLeaseOf, hnone _ (List.mem_of_find?_eq_some hlive), Bool.false_and] at hfound
    cases hfound
  | fresh hjob' _ _ _ =>
    obtain rfl := Option.some.inj (hjob.symm.trans hjob')
    exact ⟨⟨_, rfl⟩, rfl⟩

/-- The store has this lease last, alive until the deadline, and otherwise settled ones. -/
structure Leased (x : StateStore) (jobId : String) (time : ℕ) (lease : PersistedAssignmentLease)
    (deadline : ℕ) : Prop where
  last : ∃ l, x.assignments = l ++ [lease] ∧ Settled jobId time l ∧
    ∀ a ∈ l, a.assignmentId ≠ lease.assignmentId
  status : lease.status = .leased
  expiresAt : lease.expiresAt = currentTimestamp deadline
  deadline : deadline < yearsEnd

theorem Leased.same {x y : StateStore} {jobId : String} {time deadline : ℕ}
    {lease : PersistedAssignmentLease} (h : Leased x jobId time lease deadline)
    (hsame : y.assignments = x.assignments) : Leased y jobId time lease deadline :=
  ⟨by rw [hsame]; exact h.last, h.status, h.expiresAt, h.deadline⟩

theorem Leased.stays {x : StateStore} {jobId : String} {time deadline now : ℕ}
    {lease : PersistedAssignmentLease} (h : Leased x jobId time lease deadline)
    (hnow : now < deadline) : lapse (currentTimestamp now) lease = lease := by
  have hlate := (decidesExpiry h.deadline (hnow.trans h.deadline) h.expiresAt).expires
  apply if_neg
  intro hlapsed
  have := (hlate.mp hlapsed).2
  omega

theorem Leased.sweep {x : StateStore} {jobId : String} {time deadline now : ℕ}
    {lease : PersistedAssignmentLease} (h : Leased x jobId time lease deadline)
    (hnow : now < deadline) :
    Leased (expireAssignmentsLocked x (currentTimestamp now)) jobId time lease deadline := by
  obtain ⟨l, hl, hsettled, hother⟩ := h.last
  refine ⟨⟨l.map (lapse (currentTimestamp now)), ?_, hsettled.sweep _, ?_⟩, h.status, h.expiresAt,
    h.deadline⟩
  · rw [(expireAssignmentsLocked_frame x _).2.1, hl, List.map_append, List.map_singleton,
      h.stays hnow]
  · intro a ha
    obtain ⟨b, hb, rfl⟩ := List.mem_map.mp ha
    rw [(lapse_terms _ b).1.assignmentId]
    exact hother b hb

theorem Leased.named {x : StateStore} {jobId : String} {time deadline : ℕ}
    {lease : PersistedAssignmentLease} (h : Leased x jobId time lease deadline) :
    leaseNamed x lease.assignmentId = some lease := by
  obtain ⟨l, hl, -, hother⟩ := h.last
  have hnone : l.find? (fun a => a.assignmentId == lease.assignmentId) = none := by
    apply List.find?_eq_none.mpr
    intro a ha
    simpa using hother a ha
  rw [leaseNamed, hl, List.find?_append, hnone]
  simp

/-- The request is in order, and is the one for the lease. -/
structure Answers (q : SubmitWeightsRequest) (t m : String) (c : Trainer)
    (lease : PersistedAssignmentLease) : Prop where
  tenantId : normalizeTenant q.tenantId = normalizeTenant t
  modelId : normalizeModel q.modelId = normalizeModel m
  clientId : q.clientId = c.clientId
  jobId : q.jobId = lease.jobId
  assignmentId : q.assignmentId = lease.assignmentId
  roundIndex : q.roundIndex = lease.roundIndex
  baseModelVersion : q.baseModelVersion = lease.baseModelVersion
  passes : checkSubmitWeights q c.peer = ""

/-- The lease was issued to the trainer for the scope. -/
structure IssuedTo (lease : PersistedAssignmentLease) (t m : String) (c : Trainer) : Prop where
  tenantId : lease.tenantId = normalizeTenant t
  modelId : lease.modelId = normalizeModel m
  clientId : lease.clientId = c.clientId
  named : lease.jobId ≠ "" ∧ lease.assignmentId ≠ ""

theorem Answers.activeJob {q : SubmitWeightsRequest} {t m : String} {c : Trainer}
    {lease : PersistedAssignmentLease} (h : Answers q t m c lease) (x : StateStore) :
    activeJob x q = getActiveTrainingJob x t m := by
  unfold JobSteps.activeJob getActiveTrainingJob
  rw [normalizeTenant_idem, normalizeModel_idem, h.tenantId, h.modelId]

theorem Answers.fits {q : SubmitWeightsRequest} {t m : String} {c : Trainer}
    {lease : PersistedAssignmentLease} (h : Answers q t m c lease) (hto : IssuedTo lease t m c) :
    Fits lease (normalizeTenant q.tenantId) (normalizeModel q.modelId) q.clientId q.roundIndex
      q.baseModelVersion where
  clientId := hto.clientId.trans h.clientId.symm
  tenantId := by rw [normalizeTenant_idem, h.tenantId, hto.tenantId]
  modelId := by rw [normalizeModel_idem, h.modelId, hto.modelId]
  roundIndex := h.roundIndex.symm
  baseModelVersion := by
    rintro ⟨-, -, hother⟩
    exact hother h.baseModelVersion.symm

theorem Leased.passes {x : StateStore} {job : PersistedTrainingJobRecord} {time deadline now : ℕ}
    {lease : PersistedAssignmentLease} (h : Leased x job.jobId time lease deadline)
    {q : SubmitWeightsRequest} {t m : String} {c : Trainer} (hq : Answers q t m c lease)
    (hto : IssuedTo lease t m c) (hjob : getActiveTrainingJob x t m = some job)
    (hid : lease.jobId = job.jobId) (hnow : now < deadline) :
    checkTrainingAssignmentSubmission (expireAssignmentsLocked x (currentTimestamp now))
      (normalizeTenant q.tenantId) (normalizeModel q.modelId) q.clientId q.jobId q.assignmentId
      q.roundIndex q.baseModelVersion (currentTimestamp now) = .passed lease := by
  have hswept := h.sweep hnow
  have hactive : activeJob (expireAssignmentsLocked x (currentTimestamp now)) q = some job := by
    rw [hq.activeJob, getActive_expire, hjob]
  have hnamed : leaseNamed (expireAssignmentsLocked x (currentTimestamp now)) q.assignmentId =
      some lease := by
    rw [hq.assignmentId]
    exact hswept.named
  have hne : q.jobId ≠ "" ∧ q.assignmentId ≠ "" := by
    rw [hq.jobId, hq.assignmentId]
    exact hto.named
  have hlate := (decidesExpiry h.deadline (hnow.trans h.deadline) h.expiresAt).isLate
  apply check_of_fits hactive (hq.jobId.trans hid) hne hnamed (hq.fits hto) h.status
  rw [hlate]
  omega

theorem Leased.validates {x : StateStore} {job : PersistedTrainingJobRecord} {time deadline now : ℕ}
    {lease : PersistedAssignmentLease} (h : Leased x job.jobId time lease deadline)
    {q : SubmitWeightsRequest} {t m : String} {c : Trainer} (hq : Answers q t m c lease)
    (hto : IssuedTo lease t m c) (hjob : getActiveTrainingJob x t m = some job)
    (hid : lease.jobId = job.jobId) (hnow : now < deadline) : validation x q now =
      ⟨.ok (), expireAssignmentsLocked x (currentTimestamp now), false⟩ := by
  unfold validation validateTrainingAssignmentSubmission
  dsimp only
  rw [h.passes hq hto hjob hid hnow]

theorem Leased.accepted {x : StateStore} {job : PersistedTrainingJobRecord}
    {time time' deadline now : ℕ} {lease : PersistedAssignmentLease}
    (h : Leased x job.jobId time lease deadline) {q : SubmitWeightsRequest} {t m : String}
    {c : Trainer} (hq : Answers q t m c lease) (hto : IssuedTo lease t m c)
    (hjob : getActiveTrainingJob x t m = some job) (hid : lease.jobId = job.jobId)
    (hnow : now < deadline) (hcomposed : ComposedAssignment lease)
    (hissued : lease.issuedAt < currentTimestamp time') (hle : time ≤ time')
    (hend : time' < clockEnd) :
    (acceptance x q now).value = .ok () ∧
      Settled job.jobId time' (acceptance x q now).store.assignments := by
  have hpassed := h.passes hq hto hjob hid hnow
  obtain ⟨l, hl, hsettled, hother⟩ := (h.sweep hnow).last
  unfold acceptance acceptTrainingAssignmentSubmission
  dsimp only
  rw [hpassed]
  refine ⟨rfl, ?_⟩
  dsimp only
  rw [(pushAuditEvent_frame _ _).2.1]
  show Settled job.jobId time' (updateFirst _ _ (expireAssignmentsLocked x _).assignments)
  rw [hl, hq.assignmentId, updateFirst_append]
  · intro a ha
    rcases List.mem_append.mp ha with hold | hnew
    · exact (hsettled a hold).later hle hend
    · obtain rfl := List.mem_singleton.mp hnew
      exact ⟨⟨hcomposed.assignmentId, hcomposed.issuedAt⟩, hissued,
        fun _ hleased => by cases hleased⟩
  · intro a ha
    simpa using hother a ha
  · exact beq_self_eq_true _

theorem handle_next {q : SubmitWeightsRequest} {peer : Peer} {os : ℕ → Oracle F} {fuel i : ℕ}
    {w w' : World F} {p p' : SubmitPoint F}
    (h : stepSubmitWeights d w q peer (os i) p = (w', .inl p')) :
    handle d q peer os (fuel + 1) i w p = handle d q peer os fuel (i + 1) w' p' := by
  rw [handle, h]

theorem handle_to_add {w : World F} {q : SubmitWeightsRequest} {peer : Peer} {os : ℕ → Oracle F}
    {job : PersistedTrainingJobRecord} {weights : List F}
    (hversion : q.baseModelVersion = getActiveModelVersion w.store (normalizeTenant q.tenantId)
      (normalizeModel q.modelId)) (hjob : activeJob w.store q = some job)
    (hvalid : (validation w.store q (os 2).now).value = .ok ())
    (hopen : requestKey q ∉ w.buffer.completedRounds)
    (hnew : q.clientId ∉ submissions w.buffer (requestKey q))
    (hopens : decryptSubmission d.primitives w.crypto q peer = .ok weights) (fuel : ℕ) :
    handle d q peer os (fuel + 8) 0 w .modelVersion =
      handle d q peer os fuel 8 (beforeAdd w q os) (.add (some job) weights) := by
  have hround : isRoundCompleted w.buffer (normalizeTenant q.tenantId) (normalizeModel q.modelId)
      q.roundIndex = false := decide_eq_false hopen
  have hclient : hasClientSubmission w.buffer (normalizeTenant q.tenantId)
      (normalizeModel q.modelId) q.roundIndex q.clientId = false := by
    rw [hasClientSubmission_eq, Bool.eq_false_iff]
    exact fun hsome => hnew (AList.lookup_isSome.mp hsome)
  rw [activeJob] at hjob
  unfold validation at hvalid
  let swept := w.after (validation w.store q (os 2).now)
  let updated : World F := { swept with
    registry := updateLastActiveRound w.registry (normalizeTenant q.tenantId)
      (normalizeModel q.modelId) q.clientId q.roundIndex }
  have hcurrent : stepSubmitWeights d w q peer (os 0) .modelVersion =
      (w, .inl (.activeJob q.baseModelVersion)) := by
    simp only [stepSubmitWeights, ← hversion]
    rw [if_neg (by simp)]
  have hactive : stepSubmitWeights d w q peer (os 1) (.activeJob q.baseModelVersion) =
      (w, .inl (.validate q.baseModelVersion job)) := by
    simp only [stepSubmitWeights, hjob]
  have hlease : stepSubmitWeights d w q peer (os 2) (.validate q.baseModelVersion job) =
      (swept, .inl (.roundCheck q.baseModelVersion (some job))) := by
    simp only [stepSubmitWeights, hvalid]
    rfl
  have hcheck : stepSubmitWeights d swept q peer (os 3)
      (.roundCheck q.baseModelVersion (some job)) =
        (swept, .inl (.duplicateCheck q.baseModelVersion (some job))) := by
    simp only [stepSubmitWeights, swept, World.after, hround, Bool.false_eq_true, if_false]
  have hduplicate : stepSubmitWeights d swept q peer (os 4)
      (.duplicateCheck q.baseModelVersion (some job)) = (swept, .inl (.decrypt (some job))) := by
    simp only [stepSubmitWeights, swept, World.after, hclient, Bool.false_eq_true, if_false]
  have hdecrypt : stepSubmitWeights d swept q peer (os 5) (.decrypt (some job)) =
      (updated, .inl (.updateClient (some job) weights)) := by
    simp only [stepSubmitWeights, updated, swept, World.after, hopens]
  rw [handle_next hcurrent, handle_next hactive, handle_next hlease, handle_next hcheck,
    handle_next hduplicate, handle_next hdecrypt, handle_next rfl, handle_next rfl]
  rfl

theorem addWeight_waits (P : Primitives) (cfg : AggregationConfig F) (e : CryptoEngine)
    (files : CheckpointFiles) {b : WeightBuffer F} {q : Submission F} (draw : Draw F)
    (hopen : roundKey q.tenantId q.modelId q.round ∉ b.completedRounds)
    (hnew : q.clientId ∉ submissions b (roundKey q.tenantId q.modelId q.round))
    (hfew : (submissions b (roundKey q.tenantId q.modelId q.round)).entries.length + 1 <
      max 1 q.requiredClients) : ∃ outcome : AggregationAttemptResult,
    addWeight P cfg e files b q draw =
      (insertSubmission b cfg.clipNorm q, files, .returned outcome) ∧
      outcome.accepted = true ∧ outcome.aggregated = false := by
  have hcount : (submissions (insertSubmission b cfg.clipNorm q)
      (roundKey q.tenantId q.modelId q.round)).entries.length < max 1 q.requiredClients := by
    rw [submissions_insertSubmission, if_pos rfl, entries_insert_fresh hnew]
    exact hfew
  simp only [addWeight]
  rw [if_neg hopen, if_pos hcount]
  exact ⟨_, rfl, rfl, rfl⟩

theorem addWeight_prepares (P : Primitives) {cfg : AggregationConfig F} (e : CryptoEngine)
    (files : CheckpointFiles) {b : WeightBuffer F} {q : Submission F} {draw : Draw F}
    (hopen : roundKey q.tenantId q.modelId q.round ∉ b.completedRounds)
    (hnew : q.clientId ∉ submissions b (roundKey q.tenantId q.modelId q.round))
    (henough : max 1 q.requiredClients ≤
      (submissions b (roundKey q.tenantId q.modelId q.round)).entries.length + 1) {dimension : ℕ}
    (hformed : ∀ entry ∈ (submissions b (roundKey q.tenantId q.modelId q.round)).entries,
      wellFormed dimension entry.2 = true)
    (hown : wellFormed dimension (clipWeights q.weights cfg.clipNorm) = true)
    (hwritten : draw.persistence = .written) : ∃ (b' : WeightBuffer F) (files' : CheckpointFiles)
      (p : Prepared F), addWeight P cfg e files b q draw = (b', files', .prepared p) ∧
      b'.completedRounds = b.completedRounds ∧
      ∀ key, key ≠ roundKey q.tenantId q.modelId q.round →
        submissions b' key = submissions b key := by
  have hsub := submissions_insertSubmission b cfg.clipNorm q
    (roundKey q.tenantId q.modelId q.round)
  rw [if_pos rfl] at hsub
  have hentries := entries_insert_fresh hnew (clipWeights q.weights cfg.clipNorm)
  have hcount : ¬ (submissions (insertSubmission b cfg.clipNorm q)
      (roundKey q.tenantId q.modelId q.round)).entries.length < max 1 q.requiredClients := by
    rw [hsub, hentries, List.length_cons]
    omega
  have hvalid : validateWeights (submissions (insertSubmission b cfg.clipNorm q)
      (roundKey q.tenantId q.modelId q.round)) = "" := by
    rw [hsub, validateWeights_iff (by rw [hentries]; exact List.cons_ne_nil _ _), hentries]
    refine ⟨dimension, ?_⟩
    intro v hv
    rcases List.mem_cons.mp hv with rfl | hold
    · exact hown
    · obtain ⟨entry, hentry, rfl⟩ := List.mem_map.mp hold
      exact hformed entry hentry
  obtain ⟨velocity, hvelocity⟩ := computeAggregate_velocity (insertSubmission b cfg.clipNorm q) cfg
    q draw.noise draw.overflow
  have hadd := addWeight_added P cfg e files b q draw
  have hprepared : ∃ p, (addWeight P cfg e files b q draw).2.2 = .prepared p := by
    simp only [addWeight]
    rw [if_neg hopen, if_neg hcount, if_neg (not_not.mpr hvalid), persist]
    simp only [hwritten]
    exact ⟨_, rfl⟩
  obtain ⟨p, hp⟩ := hprepared
  have hsame := hadd.sameBut
  exact ⟨_, _, p, by rw [← hp], hsame.completed, hsame.others⟩

theorem handle_waits {w : World F} {q : SubmitWeightsRequest} (peer : Peer) {os : ℕ → Oracle F}
    {job : PersistedTrainingJobRecord} {weights : List F} {outcome : AggregationAttemptResult}
    (hadd : addWeight d.primitives d.config.toAggregationConfig w.crypto w.files w.buffer
      (submission d.config q (some job) weights) (os 8).draw =
        (insertSubmission w.buffer d.config.clipNorm (submission d.config q (some job) weights),
          w.files, .returned outcome)) (haccepted : outcome.accepted = true)
    (hwaiting : outcome.aggregated = false)
    (hok : (acceptance w.store q (os 9).now).value = .ok ()) (fuel : ℕ) :
    ∃ response : SubmitWeightsResponse, response.accepted = true ∧
      handle d q peer os (fuel + 3) 8 w (.add (some job) weights) =
        some ({ w with
          buffer := insertSubmission w.buffer d.config.clipNorm
            (submission d.config q (some job) weights) }.after (acceptance w.store q (os 9).now),
          response) := by
  let added : World F := { w with
    buffer := insertSubmission w.buffer d.config.clipNorm
      (submission d.config q (some job) weights) }
  have hfirst : stepSubmitWeights d w q peer (os 8) (.add (some job) weights) =
      (added, .inl (.accept job outcome)) := by
    simp only [stepSubmitWeights, hadd, afterAttempt, haccepted, if_true]
    rfl
  unfold acceptance at hok
  have hsecond : stepSubmitWeights d added q peer (os 9) (.accept job outcome) =
      (added.after (acceptance w.store q (os 9).now),
        .inl (.respond (attemptResponse d.config (some job) outcome true outcome.message)
          true)) := by
    simp only [stepSubmitWeights, added, hok, hwaiting, Bool.false_eq_true, if_false]
    rfl
  rw [handle_next hfirst, handle_next hsecond]
  exact ⟨_, rfl, rfl⟩

def published (d : Deployment F) (w : World F) (q : SubmitWeightsRequest) (now : ℕ)
    (job : PersistedTrainingJobRecord) (p : Prepared F) : World F :=
  let recorded := recordAggregatedModel w.store (normalizeTenant q.tenantId)
    (normalizeModel q.modelId) q.roundIndex p.checkpointPath d.config.aggregationStrategy
    w.crypto.activeKeyVersion p.clientCount p.result.length now
  { w.after recorded with
    buffer := (publish w.buffer (submission d.config q (some job) ([] : List F)) p.result
      recorded.value).1 }

theorem handle_completes {w : World F} {q : SubmitWeightsRequest} (peer : Peer) {os : ℕ → Oracle F}
    {job : PersistedTrainingJobRecord} {weights : List F} {b : WeightBuffer F}
    {files : CheckpointFiles} {p : Prepared F}
    (hadd : addWeight d.primitives d.config.toAggregationConfig w.crypto w.files w.buffer
      (submission d.config q (some job) weights) (os 8).draw = (b, files, .prepared p))
    (hok : (acceptance (published d { w with buffer := b, files := files } q (os 10).now job p).store
      q (os 12).now).value = .ok ()) (fuel : ℕ) :
    ∃ (v : ℤ) (response : SubmitWeightsResponse), response.accepted = true ∧
      handle d q peer os (fuel + 7) 8 w (.add (some job) weights) =
        some (((published d { w with buffer := b, files := files } q (os 10).now job p).after
          (acceptance (published d { w with buffer := b, files := files } q (os 10).now job p).store
            q (os 12).now)).after
          (advanceTrainingJobRound (acceptance (published d { w with buffer := b, files := files } q
            (os 10).now job p).store q (os 12).now).store (normalizeTenant q.tenantId)
            (normalizeModel q.modelId) q.roundIndex v (os 13).now), response) := by
  let prepared : World F := { w with buffer := b, files := files }
  have hfirst : stepSubmitWeights d w q peer (os 8) (.add (some job) weights) =
      (prepared, .inl (.keyVersion (some job) p)) := by
    simp only [stepSubmitWeights, hadd]
    rfl
  let recorded := recordAggregatedModel prepared.store (normalizeTenant q.tenantId)
    (normalizeModel q.modelId) q.roundIndex p.checkpointPath d.config.aggregationStrategy
    prepared.crypto.activeKeyVersion p.clientCount p.result.length (os 10).now
  let result := (publish prepared.buffer (submission d.config q (some job) ([] : List F)) p.result
    recorded.value).2
  have hpublish : stepSubmitWeights d (prepared.after recorded) q peer (os 11)
      (.publish (some job) p recorded.value) =
        (published d prepared q (os 10).now job p, .inl (.accept job result)) := rfl
  unfold acceptance at hok
  have haccept : stepSubmitWeights d (published d prepared q (os 10).now job p) q peer (os 12)
      (.accept job result) = ((published d prepared q (os 10).now job p).after
        (acceptance (published d prepared q (os 10).now job p).store q (os 12).now),
        .inl (.advance job result)) := by
    simp only [stepSubmitWeights, prepared, hok]
    rfl
  have hkey : stepSubmitWeights d prepared q peer (os 9) (.keyVersion (some job) p) =
      (prepared, .inl (.record (some job) p prepared.crypto.activeKeyVersion)) := rfl
  have hrecord : stepSubmitWeights d prepared q peer (os 10)
      (.record (some job) p prepared.crypto.activeKeyVersion) =
        (prepared.after recorded, .inl (.publish (some job) p recorded.value)) := rfl
  rw [handle_next hfirst, handle_next hkey, handle_next hrecord, handle_next hpublish,
    handle_next haccept, handle_next rfl]
  exact ⟨_, _, rfl, rfl⟩

end PqFl.TrainerVisits
