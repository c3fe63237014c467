import PqFl.JobLedger
import PqFl.ServerSteps

/-!
# What a step of the server does to jobs, leases and pending submissions

Most steps leave them alone. The others create a job, grant a lease, are a
step of a submission, or restart the process.
-/

set_option autoImplicit false

namespace PqFl.JobSteps
open PqFl.Identifiers PqFl.StoreRecords PqFl.StateStore PqFl.ClientRegistry PqFl.Crypto
open PqFl.Aggregation PqFl.Buffer PqFl.Services PqFl.Process PqFl.JobLedger PqFl.ListUpdate

variable {F : Type} {d : Deployment F} {s s' : Server F} {a : Action F}

/-- The submission in progress. -/
structure Submitting (F : Type) where
  q : SubmitWeightsRequest
  peer : Peer
  serial : ℕ
  point : SubmitPoint F

def submitting (s : Server F) : Option (Submitting F) :=
  match s.federated with
  | some (.submitWeights q peer serial p) => some ⟨q, peer, serial, p⟩
  | _ => none

theorem federated_of_submitting {s : Server F} {c : Submitting F} (hc : submitting s = some c) :
    s.federated = some (.submitWeights c.q c.peer c.serial c.point) := by
  unfold submitting at hc
  split at hc
  · rename_i hcall
    obtain rfl := Option.some.inj hc
    exact hcall
  · cases hc

/-- Pending submissions, their origins and the history of submissions stay. -/
structure BufferSame (s s' : Server F) : Prop where
  roundWeights : s'.world.buffer.roundWeights = s.world.buffer.roundWeights
  completedRounds : s'.world.buffer.completedRounds = s.world.buffer.completedRounds
  origin : s'.origin = s.origin
  past : s'.past = s.past
  history : ∃ es : List (Event F), s'.history = s.history ++ es ∧
    ∀ e ∈ es, ∃ t m v w, e = .restored t m v w

theorem BufferSame.refl (s : Server F) : BufferSame s s :=
  ⟨rfl, rfl, rfl, rfl, [], by simp, by simp⟩

theorem BufferSame.of_eq (hbuffer : s'.world.buffer = s.world.buffer) (horigin : s'.origin = s.origin)
    (hpast : s'.past = s.past) (hhistory : s'.history = s.history) : BufferSame s s' :=
  ⟨by rw [hbuffer], by rw [hbuffer], horigin, hpast, [], by rw [hhistory, List.append_nil], by simp⟩

theorem submitting_none (h : s.federated = none) : submitting s = none := by
  rw [submitting, h]

theorem submitting_other {call : FederatedCall F} (h : s.federated = some call)
    (hother : ∀ q peer n p, call ≠ .submitWeights q peer n p) : submitting s = none := by
  rw [submitting, h]
  cases call with
  | registerClient _ _ => rfl
  | trainingConfig _ _ => rfl
  | submitWeights q peer n p => exact absurd rfl (hother q peer n p)

theorem submitting_startSubmit {q : SubmitWeightsRequest} {peer : Peer} :
    submitting (startSubmit s q peer) =
      some ⟨q, peer, s.served, startSubmitWeights s.world.registry q peer⟩ := rfl

theorem startSubmitWeights_cases (g : Registry) (q : SubmitWeightsRequest) (peer : Peer) :
    startSubmitWeights (F := F) g q peer = .modelVersion ∨
      ∃ message, startSubmitWeights (F := F) g q peer = .refuse message 0 := by
  unfold startSubmitWeights
  split
  · exact .inr ⟨_, rfl⟩
  · split
    · exact .inl rfl
    · exact .inr ⟨_, rfl⟩

theorem afterAttempt_cases (cfg : Config F) (job : Option PersistedTrainingJobRecord)
    (result : AggregationAttemptResult) :
    (∃ j, job = some j ∧ result.accepted = true ∧ afterAttempt cfg job result = .accept j result) ∨
    (job = none ∧ result.accepted = true ∧ afterAttempt cfg job result =
      .respond (attemptResponse cfg job result true result.message) true) ∨
    (result.accepted = false ∧ afterAttempt cfg job result =
      .respond (attemptResponse cfg job result false result.message) true) := by
  unfold afterAttempt
  cases h : result.accepted with
  | false => exact .inr (.inr ⟨rfl, rfl⟩)
  | true =>
    cases job with
    | none => exact .inr (.inl ⟨rfl, rfl, rfl⟩)
    | some j => exact .inl ⟨j, rfl, rfl, rfl⟩

variable [FloatArith F]

def createsJob (d : Deployment F) (s : Server F) (q : CreateTrainingJobRequest) (peer : Peer) :
    Bool :=
  isAuthorizedAdmin d peer && checkCreateTrainingJob q == "" &&
    (getDataset s.world.store q.tenantId q.modelId q.datasetId).isSome

/-- The image on disk is the new one, or the old one which names the same jobs. -/
def DiskFollows (s s' : Server F) : Prop :=
  s'.world.disk = s'.world.store ∨
    (s'.world.disk = s.world.disk ∧ s'.world.store.trainingJobs = s.world.store.trainingJobs)

inductive JobStep (d : Deployment F) (s : Server F) : Action F → Server F → Prop
  | moved {a : Action F} {s' : Server F} (hmove : Move s.world.store s'.world.store)
      (hdisk : DiskFollows s s') (hsame : BufferSame s s')
      (hserved : s'.served = s.served)
      (hsubmit : submitting s' = submitting s) : JobStep d s a s'
  | create {q : CreateTrainingJobRequest} {peer : Peer} {now : ℕ}
      (hcreates : createsJob d s q peer = true) : JobStep d s (.createTrainingJob q peer now)
        { s with world := s.world.after (createTrainingJob s.world.store (requestedJob q) now) }
  | submit {q : SubmitWeightsRequest} {peer : Peer} (hidle : s.federated = none) :
      JobStep d s (.submitWeights q peer) (startSubmit s q peer)
  | proceed {c : Submitting F} {o : Oracle F} (hc : submitting s = some c) :
      JobStep d s (.proceed o) (proceedSubmit d s c.q c.peer c.serial o c.point)
  | restart {start : Start} {s' : Server F} (h : restart d.primitives s start = some s') :
      JobStep d s (.restart start) s'

theorem JobStep.ofOutcome {α : Type} {o : Outcome α} (hmove : Move s.world.store o.store)
    (hsave : o.save = true ∨ o.store.trainingJobs = s.world.store.trainingJobs)
    (hstore : s'.world.store = o.store)
    (hdisk : s'.world.disk = if o.save then o.store else s.world.disk)
    (hsame : BufferSame s s') (hserved : s'.served = s.served)
    (hsubmit : submitting s' = submitting s) : JobStep d s a s' := by
  refine .moved (by rw [hstore]; exact hmove) ?_ hsame hserved hsubmit
  cases hs : o.save with
  | true =>
    left
    rw [hdisk, hs, hstore]
    rfl
  | false =>
    right
    rw [hdisk, hs, hstore]
    exact ⟨rfl, hsave.resolve_left (by simp [hs])⟩

theorem JobStep.ofFrame {α : Type} {o : Outcome α} (h : jobRecords o.store = jobRecords s.world.store)
    (hstore : s'.world.store = o.store)
    (hdisk : s'.world.disk = if o.save then o.store else s.world.disk)
    (hsame : BufferSame s s') (hserved : s'.served = s.served)
    (hsubmit : submitting s' = submitting s) : JobStep d s a s' :=
  .ofOutcome (.of_jobRecords h) (.inr (congrArg Prod.fst h)) hstore hdisk hsame hserved hsubmit

theorem JobStep.silent (hstore : s'.world.store = s.world.store)
    (hdisk : s'.world.disk = s.world.disk) (hsame : BufferSame s s') (hserved : s'.served = s.served)
    (hsubmit : submitting s' = submitting s) : JobStep d s a s' :=
  .moved (.of_jobRecords (by rw [hstore])) (.inr ⟨hdisk, by rw [hstore]⟩) hsame hserved hsubmit

theorem lease_saves (s : StateStore) (t m c : String) (v n ttl : ℤ) (now : ℕ) :
    (leaseTrainingAssignment s t m c v n ttl now).save = true ∨
    (leaseTrainingAssignment s t m c v n ttl now).store.trainingJobs = s.trainingJobs := by
  unfold leaseTrainingAssignment
  dsimp only
  split
  · right
    exact (expireAssignmentsLocked_frame _ _).1
  split
  · left
    rfl
  · left
    unfold grantLease
    dsimp only
    split
    · rfl
    · split <;> rfl

theorem JobStep.stay : JobStep d s a s := .silent rfl rfl (.refl s) rfl rfl

theorem proceedRegisterClient_jobStep {info : ClientInfo} {p : RegisterClientPoint} (now : ℕ)
    (hc : s.federated = some (.registerClient info p)) :
    JobStep d s a { s with
      world := (stepRegisterClient s.world info now p).1
      federated := (stepRegisterClient s.world info now p).2.map (.registerClient info) } := by
  have hnone := submitting_other hc (by simp)
  cases p with
  | latestModel accepted => exact .silent rfl rfl (.of_eq rfl rfl rfl rfl) rfl hnone.symm
  | modelVersion accepted round => exact .silent rfl rfl (.of_eq rfl rfl rfl rfl) rfl hnone.symm
  | record response =>
    exact .ofFrame (recordClientRegistration_frame _ _ _).1 rfl rfl (.of_eq rfl rfl rfl rfl) rfl
      hnone.symm
  | audit response =>
    exact .ofFrame (recordAuditEvent_frame _ _ _).1 rfl rfl (.of_eq rfl rfl rfl rfl) rfl hnone.symm

theorem proceedTrainingConfig_jobStep {q : TrainingConfigRequest} {p : TrainingConfigPoint}
    (now : ℕ) (hc : s.federated = some (.trainingConfig q p)) :
    JobStep d s a { s with
      world := (stepTrainingConfig d.config s.world q now p).1
      federated := (stepTrainingConfig d.config s.world q now p).2.map (.trainingConfig q) } := by
  have hnone := submitting_other hc (by simp)
  cases p with
  | modelVersion => exact .silent rfl rfl (.of_eq rfl rfl rfl rfl) rfl hnone.symm
  | keyVersion _ => exact .silent rfl rfl (.of_eq rfl rfl rfl rfl) rfl hnone.symm
  | lease _ _ =>
    exact .ofOutcome (lease_move _ _ _ _ _ _ _ _) (lease_saves _ _ _ _ _ _ _ _) rfl rfl
      (.of_eq rfl rfl rfl rfl) rfl hnone.symm
  | respond _ => exact .silent rfl rfl (.of_eq rfl rfl rfl rfl) rfl hnone.symm

theorem stepRegisterWorker_jobStep (q : WorkerRegistration) (peer : Peer) (p : RegisterWorkerPoint)
    (now : ℕ) (calls : List (Call F)) :
    JobStep d s a { s with world := (stepRegisterWorker s.world q peer now p).1, calls := calls } := by
  cases p with
  | isRegistered => exact .silent rfl rfl (.of_eq rfl rfl rfl rfl) rfl rfl
  | register => exact .silent rfl rfl (.of_eq rfl rfl rfl rfl) rfl rfl
  | bind => exact .silent rfl rfl (.of_eq rfl rfl rfl rfl) rfl rfl
  | record _ =>
    exact .ofFrame (recordClientRegistration_frame _ _ _).1 rfl rfl (.of_eq rfl rfl rfl rfl) rfl rfl

theorem stepWorkerLease_jobStep (q : WorkerTaskLeaseRequest) (worker : PersistedWorkerRecord)
    (p : WorkerLeasePoint) (now : ℕ) (calls : List (Call F)) :
    JobStep d s a { s with
      world := (stepWorkerLease d.config s.world q worker now p).1, calls := calls } := by
  cases p with
  | modelVersion => exact .silent rfl rfl (.of_eq rfl rfl rfl rfl) rfl rfl
  | lease _ =>
    exact .ofOutcome (lease_move _ _ _ _ _ _ _ _) (lease_saves _ _ _ _ _ _ _ _) rfl rfl
      (.of_eq rfl rfl rfl rfl) rfl rfl
  | leaseTask _ _ =>
    exact .ofFrame (leaseWorkerTask_frame _ _ _ _ _ _).1 rfl rfl (.of_eq rfl rfl rfl rfl) rfl rfl
  | modelRecord _ _ _ => exact .silent rfl rfl (.of_eq rfl rfl rfl rfl) rfl rfl
  | respond _ => exact .silent rfl rfl (.of_eq rfl rfl rfl rfl) rfl rfl

theorem stepCall_jobStep {now : ℕ} {call : Call F}
    {next : World F × Option (Call F) × List (Event F)} (h : stepCall d s now call = some next)
    (calls : List (Call F)) : JobStep d s a { s with
      world := next.1, calls := calls, history := s.history ++ next.2.2 } := by
  cases call with
  | registerWorker q peer p =>
    obtain rfl := Option.some.inj h
    dsimp only
    rw [List.append_nil]
    exact stepRegisterWorker_jobStep q peer p now calls
  | leaseTrainingTask q worker p =>
    obtain rfl := Option.some.inj h
    dsimp only
    rw [List.append_nil]
    exact stepWorkerLease_jobStep q worker p now calls
  | rollbackModel target p =>
    cases p with
    | readCheckpoint =>
      obtain rfl := Option.some.inj h
      dsimp only
      rw [List.append_nil]
      exact .silent rfl rfl (.of_eq rfl rfl rfl rfl) rfl rfl
    | restore weights =>
      simp only [stepCall] at h
      split at h
      · cases h
      obtain rfl := Option.some.inj h
      refine .silent rfl rfl ⟨rfl, rfl, rfl, rfl, _, rfl, ?_⟩ rfl rfl
      intro e he
      exact ⟨_, _, _, _, List.mem_singleton.mp he⟩
  | rotateAtRestKey keyVersion =>
    obtain rfl := Option.some.inj h
    dsimp only
    rw [List.append_nil]
    exact .ofFrame (updateActiveKeyVersion_frame _ _ _).1 rfl rfl (.of_eq rfl rfl rfl rfl) rfl rfl

theorem step_jobStep (h : step d s a = some s') : JobStep d s a s' := by
  cases step_stepped h with
  | refused _ => exact .stay
  | registerClient hidle _ =>
    exact .silent rfl rfl (.of_eq rfl rfl rfl rfl) rfl (submitting_none hidle).symm
  | getTrainingConfig hidle _ =>
    exact .silent rfl rfl (.of_eq rfl rfl rfl rfl) rfl (submitting_none hidle).symm
  | submitWeights hidle => exact .submit hidle
  | registering hcall => exact proceedRegisterClient_jobStep _ hcall
  | configuring hcall => exact proceedTrainingConfig_jobStep _ hcall
  | @submitting o q peer serial p hcall =>
    have hsub : submitting s = some ⟨q, peer, serial, p⟩ := by rw [submitting, hcall]
    exact .proceed hsub
  | registerWorker _ _ =>
    exact .ofFrame (upsertWorker_frame _ _ _).1 rfl rfl (.of_eq rfl rfl rfl rfl) rfl rfl
  | leaseTrainingTask _ _ _ => exact .silent rfl rfl (.of_eq rfl rfl rfl rfl) rfl rfl
  | reportTaskStatus _ _ =>
    exact .ofFrame (updateWorkerTaskStatus_frame _ _ _ _ _ _ _).1 rfl rfl (.of_eq rfl rfl rfl rfl)
      rfl rfl
  | heartbeat _ _ =>
    exact .ofFrame (recordWorkerHeartbeat_frame _ _ _ _ _).1 rfl rfl (.of_eq rfl rfl rfl rfl) rfl rfl
  | upsertDataset _ _ =>
    exact .ofFrame (upsertDataset_frame _ _ _).1 rfl rfl (.of_eq rfl rfl rfl rfl) rfl rfl
  | createTrainingJob hadmin hpasses hdataset =>
    apply JobStep.create
    simp [createsJob, hadmin, hpasses, hdataset]
  | rollbackMissed _ _ _ =>
    exact .ofFrame (rollbackModel_frame _ _ _ _ _).1 rfl rfl (.of_eq rfl rfl rfl rfl) rfl rfl
  | rollbackModel _ _ _ =>
    exact .ofFrame (rollbackModel_frame _ _ _ _ _).1 rfl rfl (.of_eq rfl rfl rfl rfl) rfl rfl
  | rotateAtRestKey _ _ => exact .silent rfl rfl (.of_eq rfl rfl rfl rfl) rfl rfl
  | call _ hnext => exact stepCall_jobStep hnext _
  | restart hrestart => exact .restart hrestart

def activeJob (store : StateStore) (q : SubmitWeightsRequest) : Option PersistedTrainingJobRecord :=
  getActiveTrainingJob store (normalizeTenant q.tenantId) (normalizeModel q.modelId)

/-- The acceptance of a submission under the lease it names. -/
def acceptance (store : StateStore) (q : SubmitWeightsRequest) (now : ℕ) :
    Outcome (Except String Unit) :=
  acceptTrainingAssignmentSubmission store (normalizeTenant q.tenantId) (normalizeModel q.modelId)
    q.clientId q.jobId q.assignmentId q.roundIndex q.baseModelVersion now

theorem submitting_proceed {c c' : Submitting F} {o : Oracle F} :
    submitting (proceedSubmit d s c.q c.peer c.serial o c.point) = some c' ↔
      ∃ p, (stepSubmitWeights d s.world c.q c.peer o c.point).2 = .inl p ∧
        c' = { c with point := p } := by
  unfold submitting proceedSubmit
  cases h : (stepSubmitWeights d s.world c.q c.peer o c.point).2 with
  | inl p => simp [h, eq_comm]
  | inr response => simp [h]

theorem next_advance {w : World F} {q : SubmitWeightsRequest} {peer : Peer} {o : Oracle F}
    {p : SubmitPoint F} {job : PersistedTrainingJobRecord} {result : AggregationAttemptResult}
    (h : (stepSubmitWeights d w q peer o p).2 = .inl (.advance job result)) :
    p = .accept job result ∧ (acceptance w.store q o.now).value = .ok () ∧
      result.aggregated = true := by
  cases p with
  | accept j r =>
    simp only [stepSubmitWeights] at h
    split at h
    · simp at h
    rename_i hok
    split at h
    · rename_i hagg
      simp only [Sum.inl.injEq, SubmitPoint.advance.injEq] at h
      obtain ⟨rfl, rfl⟩ := h
      exact ⟨rfl, hok, hagg⟩
    · simp at h
  | add j weights =>
    simp only [stepSubmitWeights] at h
    generalize addWeight (F := F) _ _ _ _ _ _ _ = added at h
    obtain ⟨b, files, attempt⟩ := added
    cases attempt with
    | prepared p => simp at h
    | returned r =>
      rcases afterAttempt_cases d.config j r with ⟨_, _, _, ha⟩ | ⟨_, _, ha⟩ | ⟨_, ha⟩ <;>
        simp [ha] at h
  | publish j p v =>
    simp only [stepSubmitWeights] at h
    rcases afterAttempt_cases d.config j (Buffer.publish w.buffer (submission d.config q j ([] : List F))
      p.result v).2 with ⟨_, _, _, ha⟩ | ⟨_, _, ha⟩ | ⟨_, ha⟩ <;> simp [ha] at h
  | modelVersion =>
    simp only [stepSubmitWeights, Sum.inl.injEq] at h
    split at h <;> simp [SubmitPoint.refuse] at h
  | activeJob current =>
    simp only [stepSubmitWeights] at h
    split at h <;> simp at h
  | validate current j =>
    simp only [stepSubmitWeights, Sum.inl.injEq] at h
    split at h <;> simp [SubmitPoint.refuse] at h
  | roundCheck current j =>
    simp only [stepSubmitWeights, Sum.inl.injEq] at h
    split at h <;> simp [SubmitPoint.refuse] at h
  | duplicateCheck current j =>
    simp only [stepSubmitWeights, Sum.inl.injEq] at h
    split at h <;> simp [SubmitPoint.refuse] at h
  | decrypt j =>
    simp only [stepSubmitWeights] at h
    split at h <;> simp [SubmitPoint.refuse] at h
  | updateClient j weights => simp [stepSubmitWeights] at h
  | recordSubmission j weights => simp [stepSubmitWeights] at h
  | keyVersion j p => simp [stepSubmitWeights] at h
  | record j p v => simp [stepSubmitWeights] at h
  | advance j r => simp [stepSubmitWeights] at h
  | respond response countClients => simp [stepSubmitWeights] at h

end PqFl.JobSteps
