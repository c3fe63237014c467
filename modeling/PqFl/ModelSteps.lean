import PqFl.BindingSteps
import PqFl.LatestModels

/-!
# The steps that touch the models

A model has a record in the store, a sealed checkpoint file, and perhaps a place
in the buffer. Submissions and rollbacks move it from one to the other; the keys
that checkpoints are sealed under change by rotation.
-/

set_option autoImplicit false

namespace PqFl.ModelSteps
open PqFl.Identifiers PqFl.StoreRecords PqFl.StateStore PqFl.ListUpdate PqFl.Crypto
open PqFl.Aggregation PqFl.Buffer PqFl.Services PqFl.Process PqFl.ServerStore PqFl.JobSteps
open PqFl.LatestModels PqFl.SubmissionTracking PqFl.CertificateBinding
open PqFl.StoreRuns (Operation perform perform_models_same)

variable {F : Type} {d : Deployment F} {s s' : Server F} {a : Action F}

def isModelEvent : Event F → Bool
  | .recorded _ _ _ _ _ => true
  | .restored _ _ _ _ => true
  | _ => false

/-- The models that were recorded or restored, in order. -/
def modelEvents (s : Server F) : List (Event F) := s.events.filter isModelEvent

/-- A step which leaves models, checkpoints and keys alone. -/
structure ModelsKept (s s' : Server F) : Prop where
  models : s'.world.store.models = s.world.store.models
  files : s'.world.files = s.world.files
  crypto : s'.world.crypto = s.world.crypto
  keyFiles : s'.world.keyFiles = s.world.keyFiles
  latest : s'.world.buffer.latestModels = s.world.buffer.latestModels
  completed : s'.world.buffer.completedRounds = s.world.buffer.completedRounds
  boot : s'.boot = s.boot
  submitting : submitting s' = submitting s
  rollbacks : ∀ target p, .rollbackModel target p ∈ s'.calls ↔ .rollbackModel target p ∈ s.calls
  events : modelEvents s' = modelEvents s

theorem ModelsKept.refl (s : Server F) : ModelsKept s s :=
  ⟨rfl, rfl, rfl, rfl, rfl, rfl, rfl, rfl, fun _ _ => Iff.rfl, rfl⟩

theorem ModelsKept.after {α : Type} {x : Outcome α} (hmodels : x.store.models = s.world.store.models)
    (hworld : s'.world = s.world.after x) (hboot : s'.boot = s.boot)
    (hsubmitting : JobSteps.submitting s' = JobSteps.submitting s)
    (hrollbacks : ∀ target p, .rollbackModel target p ∈ s'.calls ↔ .rollbackModel target p ∈ s.calls)
    (hevents : modelEvents s' = modelEvents s) : ModelsKept s s' := by
  refine ⟨?_, ?_, ?_, ?_, ?_, ?_, hboot, hsubmitting, hrollbacks, hevents⟩
  · rw [hworld]
    exact hmodels
  all_goals rw [hworld]; rfl

theorem rollbacks_append {calls : List (Call F)} {call : Call F}
    (h : ∀ target p, call ≠ .rollbackModel target p) (target : PersistedModelRecord)
    (p : RollbackPoint F) :
    .rollbackModel target p ∈ calls ++ [call] ↔ .rollbackModel target p ∈ calls := by
  rw [List.mem_append, List.mem_singleton]
  exact or_iff_left (fun he => h target p he.symm)

theorem rollbacks_replaceCall {calls : List (Call F)} {i : ℕ} {old : Call F}
    (hi : calls[i]? = some old) (next : Option (Call F))
    (hold : ∀ target p, old ≠ .rollbackModel target p)
    (hnext : ∀ target p, next ≠ some (.rollbackModel target p)) (target : PersistedModelRecord)
    (p : RollbackPoint F) :
    .rollbackModel target p ∈ replaceCall calls i next ↔ .rollbackModel target p ∈ calls := by
  constructor
  · intro h
    exact (mem_replaceCall h).resolve_right (hnext target p)
  · intro h
    exact (mem_replaceCall_of_mem hi next h).resolve_left (fun he => hold target p he.symm)

theorem modelEvents_append {s s' : Server F} {es : List (Event F)} (hpast : s'.past = s.past)
    (hhistory : s'.history = s.history ++ es) :
    modelEvents s' = modelEvents s ++ es.filter isModelEvent := by
  rw [modelEvents, modelEvents, Server.events, Server.events, hpast, hhistory, ← List.append_assoc,
    List.filter_append]

theorem not_submitting {call : FederatedCall F} (h : s.federated = some call)
    (hother : ∀ q peer n p, call ≠ .submitWeights q peer n p) (hs' : s'.federated = none ∨
      ∃ call', s'.federated = some call' ∧ ∀ q peer n p, call' ≠ .submitWeights q peer n p) :
    submitting s' = submitting s := by
  rw [submitting_other h hother]
  rcases hs' with hnone | ⟨call', hcall', hother'⟩
  · exact submitting_none hnone
  · exact submitting_other hcall' hother'

variable [FloatArith F]

/-- What a step does to models, checkpoints and keys. -/
inductive ModelStep (d : Deployment F) (s : Server F) : Action F → Server F → Prop
  | kept {a : Action F} {s' : Server F} (h : ModelsKept s s') : ModelStep d s a s'
  | submit {q : SubmitWeightsRequest} {peer : Peer} (hidle : s.federated = none) :
      ModelStep d s (.submitWeights q peer) (startSubmit s q peer)
  | proceed {c : Submitting F} {o : Oracle F} (hc : submitting s = some c) :
      ModelStep d s (.proceed o) (proceedSubmit d s c.q c.peer c.serial o c.point)
  | rollback {q : RollbackModelRequest} {peer : Peer} {now : ℕ} {target : PersistedModelRecord}
      (htarget : (rollbackModel s.world.store q.tenantId q.modelId q.targetVersion now).value =
        some target) :
      ModelStep d s (.rollbackModel q peer now) { s with
        world := s.world.after
          (rollbackModel s.world.store q.tenantId q.modelId q.targetVersion now)
        calls := s.calls ++ [.rollbackModel target .readCheckpoint] }
  | unreadable {i now : ℕ} {target : PersistedModelRecord} {what : String}
      (hcall : s.calls[i]? = some (.rollbackModel target .readCheckpoint))
      (hread : readCheckpoint d.primitives s.world target.checkpointPath = .error what) :
      ModelStep d s (.call i now) { s with calls := s.calls.eraseIdx i }
  | readable {i now : ℕ} {target : PersistedModelRecord} {weights : List F}
      (hcall : s.calls[i]? = some (.rollbackModel target .readCheckpoint))
      (hread : readCheckpoint d.primitives s.world target.checkpointPath = .ok weights) :
      ModelStep d s (.call i now) { s with
        calls := s.calls.set i (.rollbackModel target (.restore weights)) }
  | restored {i now : ℕ} {target : PersistedModelRecord} {weights : List F}
      (hcall : s.calls[i]? = some (.rollbackModel target (.restore weights)))
      (hfree : bufferLocked s = false) :
      ModelStep d s (.call i now) { s with
        world := { s.world with
          buffer := restoreLatestGlobalModel s.world.buffer target.tenantId target.modelId
            target.latestRound target.version weights }
        calls := s.calls.eraseIdx i
        history := s.history ++
          [.restored target.tenantId target.modelId target.version weights] }
  | rotated {keyBytes : Key} {peer : Peer} {rotated : CryptoEngine × KeyFiles}
      (hrotated : rotateMasterKey s.world.crypto s.world.keyFiles keyBytes = some rotated) :
      ModelStep d s (.rotateAtRestKey keyBytes peer) { s with
        world := { s.world with crypto := rotated.1, keyFiles := rotated.2 }
        calls := s.calls ++ [.rotateAtRestKey rotated.1.activeKeyVersion] }
  | restart {start : Start} {s' : Server F} (h : restart d.primitives s start = some s') :
      ModelStep d s (.restart start) s'

theorem proceed_modelStep {o : Oracle F} (h : Process.proceed d s o = some s') :
    ModelStep d s (.proceed o) s' := by
  unfold Process.proceed at h
  split at h
  · cases h
  · rename_i info p hcall
    cases h
    apply ModelStep.kept
    cases p with
    | latestModel accepted =>
      exact ⟨rfl, rfl, rfl, rfl, rfl, rfl, rfl,
        not_submitting hcall (by simp) (.inr ⟨_, rfl, by simp⟩), fun _ _ => Iff.rfl, rfl⟩
    | modelVersion accepted round =>
      exact ⟨rfl, rfl, rfl, rfl, rfl, rfl, rfl,
        not_submitting hcall (by simp) (.inr ⟨_, rfl, by simp⟩), fun _ _ => Iff.rfl, rfl⟩
    | record response =>
      exact .after (recordClientRegistration_frame _ _ _).2 rfl rfl
        (not_submitting hcall (by simp) (.inr ⟨_, rfl, by simp⟩)) (fun _ _ => Iff.rfl) rfl
    | audit response =>
      exact .after (recordAuditEvent_frame _ _ _).2.2 rfl rfl
        (not_submitting hcall (by simp) (.inl rfl)) (fun _ _ => Iff.rfl) rfl
  · rename_i q p hcall
    cases h
    apply ModelStep.kept
    cases p with
    | modelVersion =>
      exact ⟨rfl, rfl, rfl, rfl, rfl, rfl, rfl,
        not_submitting hcall (by simp) (.inr ⟨_, rfl, by simp⟩), fun _ _ => Iff.rfl, rfl⟩
    | keyVersion modelVersion =>
      exact ⟨rfl, rfl, rfl, rfl, rfl, rfl, rfl,
        not_submitting hcall (by simp) (.inr ⟨_, rfl, by simp⟩), fun _ _ => Iff.rfl, rfl⟩
    | lease modelVersion keyVersion =>
      exact .after (leaseTrainingAssignment_frame _ _ _ _ _ _ _ _).2 rfl rfl
        (not_submitting hcall (by simp) (.inr ⟨_, rfl, by simp⟩)) (fun _ _ => Iff.rfl) rfl
    | respond response =>
      exact ⟨rfl, rfl, rfl, rfl, rfl, rfl, rfl, not_submitting hcall (by simp) (.inl rfl),
        fun _ _ => Iff.rfl, rfl⟩
  · rename_i q peer n p hcall
    cases h
    have hc : submitting s = some ⟨q, peer, n, p⟩ := by rw [submitting, hcall]
    exact .proceed hc

theorem stepCallAt_modelStep {i now : ℕ} (h : stepCallAt d s i now = some s') :
    ModelStep d s (.call i now) s' := by
  unfold stepCallAt at h
  obtain ⟨call, hcall, hrest⟩ := Option.bind_eq_some_iff.mp h
  obtain ⟨next, hnext, rfl⟩ := Option.map_eq_some_iff.mp hrest
  cases call with
  | registerWorker q peer p =>
    cases hnext
    dsimp only
    rw [List.append_nil]
    apply ModelStep.kept
    have hrollbacks := rollbacks_replaceCall hcall
      ((stepRegisterWorker s.world q peer now p).2.map (.registerWorker q peer)) (by simp) (by simp)
    cases p with
    | isRegistered => exact ⟨rfl, rfl, rfl, rfl, rfl, rfl, rfl, rfl, hrollbacks, rfl⟩
    | register => exact ⟨rfl, rfl, rfl, rfl, rfl, rfl, rfl, rfl, hrollbacks, rfl⟩
    | bind => exact ⟨rfl, rfl, rfl, rfl, rfl, rfl, rfl, rfl, hrollbacks, rfl⟩
    | record registeredAt =>
      exact .after (recordClientRegistration_frame _ _ _).2 rfl rfl rfl hrollbacks rfl
  | leaseTrainingTask q worker p =>
    cases hnext
    dsimp only
    rw [List.append_nil]
    apply ModelStep.kept
    have hrollbacks := rollbacks_replaceCall hcall
      ((stepWorkerLease d.config s.world q worker now p).2.map (.leaseTrainingTask q worker))
      (by simp) (by simp)
    cases p with
    | modelVersion => exact ⟨rfl, rfl, rfl, rfl, rfl, rfl, rfl, rfl, hrollbacks, rfl⟩
    | lease modelVersion =>
      exact .after (leaseTrainingAssignment_frame _ _ _ _ _ _ _ _).2 rfl rfl rfl hrollbacks rfl
    | leaseTask modelVersion lease =>
      exact .after (leaseWorkerTask_frame _ _ _ _ _ _).2.2 rfl rfl rfl hrollbacks rfl
    | modelRecord modelVersion lease task =>
      exact ⟨rfl, rfl, rfl, rfl, rfl, rfl, rfl, rfl, hrollbacks, rfl⟩
    | respond response => exact ⟨rfl, rfl, rfl, rfl, rfl, rfl, rfl, rfl, hrollbacks, rfl⟩
  | rollbackModel target p =>
    cases p with
    | readCheckpoint =>
      cases hnext
      dsimp only
      rw [List.append_nil]
      split
      · rename_i what hread
        exact .unreadable hcall hread
      · rename_i weights hread
        exact .readable hcall hread
    | restore weights =>
      simp only [stepCall] at hnext
      split at hnext
      · cases hnext
      · rename_i hfree
        cases hnext
        exact .restored hcall (by simpa using hfree)
  | rotateAtRestKey keyVersion =>
    cases hnext
    dsimp only
    rw [List.append_nil]
    apply ModelStep.kept
    exact .after (updateActiveKeyVersion_frame _ _ _).2.2 rfl rfl rfl
      (rollbacks_replaceCall hcall none (by simp) (by simp)) rfl

theorem rollback_none {x : StateStore} {t m : String} {v : ℤ} {now : ℕ}
    (h : (rollbackModel x t m v now).value = none) : (rollbackModel x t m v now).store = x := by
  unfold rollbackModel at h ⊢
  dsimp only at h ⊢
  split at h
  · rename_i hfound
    rfl
  · cases h

theorem step_modelStep (h : Process.step d s a = some s') : ModelStep d s a s' := by
  cases step_stepped h with
  | refused hrequest => exact .kept (.refl s)
  | registerClient hidle hpasses =>
    exact .kept ⟨rfl, rfl, rfl, rfl, rfl, rfl, rfl, (submitting_none hidle).symm,
      fun _ _ => Iff.rfl, rfl⟩
  | getTrainingConfig hidle hpasses =>
    exact .kept ⟨rfl, rfl, rfl, rfl, rfl, rfl, rfl, (submitting_none hidle).symm,
      fun _ _ => Iff.rfl, rfl⟩
  | submitWeights hidle => exact .submit hidle
  | registering hcall => exact proceed_modelStep h
  | configuring hcall => exact proceed_modelStep h
  | submitting hcall => exact proceed_modelStep h
  | registerWorker hworker hpasses =>
    exact .kept (.after (upsertWorker_frame _ _ _).2.2 rfl rfl rfl (rollbacks_append (by simp)) rfl)
  | leaseTrainingTask hworker hpasses hknown =>
    exact .kept ⟨rfl, rfl, rfl, rfl, rfl, rfl, rfl, rfl, rollbacks_append (by simp), rfl⟩
  | reportTaskStatus hworker hpasses =>
    exact .kept (.after (updateWorkerTaskStatus_frame _ _ _ _ _ _ _).2.2 rfl rfl rfl
      (fun _ _ => Iff.rfl) rfl)
  | heartbeat hworker hpasses =>
    exact .kept (.after (recordWorkerHeartbeat_frame _ _ _ _ _).2.2 rfl rfl rfl
      (fun _ _ => Iff.rfl) rfl)
  | upsertDataset hadmin hpasses =>
    exact .kept (.after (upsertDataset_frame _ _ _).2.2 rfl rfl rfl (fun _ _ => Iff.rfl) rfl)
  | createTrainingJob hadmin hpasses hdataset =>
    exact .kept (.after (createTrainingJob_frame _ _ _).2 rfl rfl rfl (fun _ _ => Iff.rfl) rfl)
  | rollbackMissed hadmin hpasses hmissed =>
    refine .kept (.after ?_ rfl rfl rfl (fun _ _ => Iff.rfl) rfl)
    rw [rollback_none hmissed]
  | rollbackModel hadmin hpasses htarget => exact .rollback htarget
  | rotateAtRestKey hadmin hrotated => exact .rotated hrotated
  | call hcall hnext => exact stepCallAt_modelStep h
  | restart hs => exact .restart h

end PqFl.ModelSteps
