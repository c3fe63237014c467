import PqFl.RecordedRounds

/-!
# The steps that touch the buffer

Submissions add vectors to the buffer and publish aggregates, a rollback puts a
model back, and a restart begins with an empty buffer and the models on disk.
Every other step leaves the whole buffer as it is.
-/

set_option autoImplicit false

namespace PqFl.BufferSteps
open PqFl.Identifiers PqFl.StoreRecords PqFl.Crypto PqFl.Aggregation PqFl.Buffer PqFl.Services
open PqFl.Process PqFl.JobSteps PqFl.ModelSteps PqFl.RecordedRounds

variable {F : Type} [FloatArith F] {d : Deployment F} {s s' : Server F} {a : Action F}

/-- What a step does to the buffer and to the records of models. -/
inductive BufferStep (d : Deployment F) (s : Server F) : Action F → Server F → Prop
  | kept {a : Action F} {s' : Server F} (hbuffer : s'.world.buffer = s.world.buffer)
      (hsubmitting : submitting s' = submitting s)
      (hrecorded : recordedModels s' = recordedModels s) : BufferStep d s a s'
  | submit {q : SubmitWeightsRequest} {peer : Peer} (hidle : s.federated = none) :
      BufferStep d s (.submitWeights q peer) (startSubmit s q peer)
  | proceed {c : Submitting F} {o : Oracle F} (hc : submitting s = some c) :
      BufferStep d s (.proceed o) (proceedSubmit d s c.q c.peer c.serial o c.point)
  | restored {i now : ℕ} {s' : Server F} {target : PersistedModelRecord} {weights : List F}
      (hcall : s.calls[i]? = some (.rollbackModel target (.restore weights)))
      (hfree : bufferLocked s = false)
      (hbuffer : s'.world.buffer = restoreLatestGlobalModel s.world.buffer target.tenantId
        target.modelId target.latestRound target.version weights)
      (hsubmitting : submitting s' = submitting s)
      (hrecorded : recordedModels s' = recordedModels s) : BufferStep d s (.call i now) s'
  | restart {start : Start} {s' : Server F} (h : restart d.primitives s start = some s') :
      BufferStep d s (.restart start) s'

theorem proceed_bufferStep {o : Oracle F} (h : Process.proceed d s o = some s') :
    BufferStep d s (.proceed o) s' := by
  unfold Process.proceed at h
  split at h
  · cases h
  · rename_i info p hcall
    cases h
    cases p with
    | latestModel accepted =>
      exact .kept rfl (not_submitting hcall (by simp) (.inr ⟨_, rfl, by simp⟩)) rfl
    | modelVersion accepted round =>
      exact .kept rfl (not_submitting hcall (by simp) (.inr ⟨_, rfl, by simp⟩)) rfl
    | record response =>
      exact .kept rfl (not_submitting hcall (by simp) (.inr ⟨_, rfl, by simp⟩)) rfl
    | audit response => exact .kept rfl (not_submitting hcall (by simp) (.inl rfl)) rfl
  · rename_i q p hcall
    cases h
    cases p with
    | modelVersion => exact .kept rfl (not_submitting hcall (by simp) (.inr ⟨_, rfl, by simp⟩)) rfl
    | keyVersion modelVersion =>
      exact .kept rfl (not_submitting hcall (by simp) (.inr ⟨_, rfl, by simp⟩)) rfl
    | lease modelVersion keyVersion =>
      exact .kept rfl (not_submitting hcall (by simp) (.inr ⟨_, rfl, by simp⟩)) rfl
    | respond response => exact .kept rfl (not_submitting hcall (by simp) (.inl rfl)) rfl
  · rename_i q peer n p hcall
    cases h
    have hc : submitting s = some ⟨q, peer, n, p⟩ := by rw [submitting, hcall]
    exact .proceed hc

theorem call_bufferStep {i now : ℕ} (h : stepCallAt d s i now = some s') :
    BufferStep d s (.call i now) s' := by
  unfold stepCallAt at h
  obtain ⟨call, hcall, hrest⟩ := Option.bind_eq_some_iff.mp h
  obtain ⟨next, hnext, rfl⟩ := Option.map_eq_some_iff.mp hrest
  cases call with
  | registerWorker q peer p =>
    cases hnext
    dsimp only
    rw [List.append_nil]
    cases p with
    | _ => exact .kept rfl rfl rfl
  | leaseTrainingTask q worker p =>
    cases hnext
    dsimp only
    rw [List.append_nil]
    cases p with
    | _ => exact .kept rfl rfl rfl
  | rollbackModel target p =>
    cases p with
    | readCheckpoint =>
      cases hnext
      dsimp only
      rw [List.append_nil]
      exact .kept rfl rfl rfl
    | restore weights =>
      simp only [stepCall] at hnext
      split at hnext
      · cases hnext
      · rename_i hfree
        cases hnext
        exact .restored hcall (by simpa using hfree) rfl rfl (recordedModels_restored rfl rfl)
  | rotateAtRestKey keyVersion =>
    cases hnext
    dsimp only
    rw [List.append_nil]
    exact .kept rfl rfl rfl

theorem step_bufferStep (h : Process.step d s a = some s') : BufferStep d s a s' := by
  cases step_stepped h with
  | refused hrequest => exact .kept rfl rfl rfl
  | registerClient hidle hpasses => exact .kept rfl (submitting_none hidle).symm rfl
  | getTrainingConfig hidle hpasses => exact .kept rfl (submitting_none hidle).symm rfl
  | submitWeights hidle => exact .submit hidle
  | registering hcall => exact proceed_bufferStep h
  | configuring hcall => exact proceed_bufferStep h
  | submitting hcall => exact proceed_bufferStep h
  | call hcall hnext => exact call_bufferStep h
  | restart hs => exact .restart hs
  | _ => exact .kept rfl rfl rfl

end PqFl.BufferSteps
