import PqFl.CheckpointWrites
import PqFl.ModelVersions

/-!
# The active version over a step

Of the steps of the server only the record of an aggregate and a rollback change
which version of a scope is active, and each of them in its own scope only.
-/

set_option autoImplicit false

namespace PqFl.ActiveVersions
open PqFl.Identifiers PqFl.StoreRecords PqFl.StateStore PqFl.ListUpdate PqFl.Crypto
open PqFl.Aggregation PqFl.Buffer PqFl.Services PqFl.Process PqFl.ServerStore PqFl.JobSteps
open PqFl.SubmissionTracking PqFl.ModelSteps PqFl.CheckpointWrites PqFl.ModelVersions PqFl.Runs

variable {F : Type} {d : Deployment F} {s s' : Server F} {a : Action F}

theorem activeVersion_of_modelsOf {x y : StateStore} {t m : String}
    (h : modelsOf y t m = modelsOf x t m) :
    getActiveModelVersion y t m = getActiveModelVersion x t m := by
  rw [getActiveModelVersion_eq, getActiveModelVersion_eq, getActiveModelRecord_eq,
    getActiveModelRecord_eq, h]

theorem activeVersion_of_models {x y : StateStore} (h : y.models = x.models) (t m : String) :
    getActiveModelVersion y t m = getActiveModelVersion x t m := by
  apply activeVersion_of_modelsOf
  rw [modelsOf, h, modelsOf]

theorem activeVersion_of_numbered {x : StateStore} {log : List (String × String × ℤ)}
    {t m : String} (h : Numbered x log t m) :
    getActiveModelVersion x t m = (lastActivated log t m).getD 0 := by
  rw [getActiveModelVersion_eq, h.activeVersion]

theorem rollback_activeVersion {x : StateStore} {log : List (String × String × ℤ)} {t' m' : String}
    (h : Numbered x log t' m') (t m : String) (v : ℤ) (now : ℕ) :
    getActiveModelVersion (rollbackModel x t m v now).store t' m' =
      if (normalizeTenant t' = normalizeTenant t ∧ normalizeModel m' = normalizeModel m) ∧
          (rollbackModel x t m v now).value.isSome = true then v
      else getActiveModelVersion x t' m' := by
  by_cases hscope : (normalizeTenant t' = normalizeTenant t ∧ normalizeModel m' = normalizeModel m) ∧
      (rollbackModel x t m v now).value.isSome = true
  · have hafter := rollback_numbered h t m v now
    have hlog : StoreRuns.activation x now (.rollbackModel t m v) =
        [(normalizeTenant t, normalizeModel m, v)] := if_pos hscope.2
    rw [if_pos hscope, activeVersion_of_numbered hafter, hlog, lastActivated_append,
      if_pos hscope.1]
    rfl
  · rw [if_neg hscope]
    apply activeVersion_of_modelsOf
    rw [rollback_modelsOf, if_neg hscope]

def activeVersion (s : Server F) (scope : String × String) : ℤ :=
  getActiveModelVersion s.world.store scope.1 scope.2

theorem reached_numbered (h : StoreReached s) :
    ∃ log, ∀ t m, Numbered s.world.store log t m := by
  obtain ⟨n, p, hreach, hside⟩ := h
  refine ⟨p.activated, fun t m => ?_⟩
  rw [← hside.store]
  exact (run_registered hreach).scopes t m

theorem activeVersion_same (h : s'.world.store.models = s.world.store.models)
    (scope : String × String) : activeVersion s' scope = activeVersion s scope :=
  activeVersion_of_models h _ _

def rollsBack (d : Deployment F) (q : RollbackModelRequest) (peer : Peer) : Bool :=
  isAuthorizedAdmin d peer && checkRollbackModel q == ""

theorem startRollback_activeVersion (hr : StoreReached s) (q : RollbackModelRequest) (peer : Peer)
    (now : ℕ) (scope : String × String) :
    activeVersion (startRollbackModel d s q peer now) scope =
      if rollsBack d q peer = true ∧ (normalizeTenant scope.1 = normalizeTenant q.tenantId ∧
          normalizeModel scope.2 = normalizeModel q.modelId) ∧
          (rollbackModel s.world.store q.tenantId q.modelId q.targetVersion now).value.isSome = true
        then q.targetVersion else activeVersion s scope := by
  obtain ⟨log, hlog⟩ := reached_numbered hr
  unfold startRollbackModel rollsBack
  by_cases hpass : (!isAuthorizedAdmin d peer || checkRollbackModel q != "") = true
  · have hfail : ¬ (isAuthorizedAdmin d peer && checkRollbackModel q == "") = true := by
      simpa [or_iff_not_imp_left] using hpass
    rw [if_pos hpass, if_neg (fun h => hfail h.1)]
  · have hdone : (isAuthorizedAdmin d peer && checkRollbackModel q == "") = true := by
      simpa [not_or] using hpass
    rw [if_neg hpass]
    simp only [hdone, true_and]
    exact rollback_activeVersion (hlog scope.1 scope.2) q.tenantId q.modelId q.targetVersion now

variable [FloatArith F]

theorem record_activeVersion {x : StateStore} {log : List (String × String × ℤ)} {t' m' : String}
    (h : Numbered x log t' m') (t m : String) (round : ℤ) (path strategy : String)
    (keyVersion clientCount weightDimension : ℤ) (now : ℕ) :
    getActiveModelVersion (recordAggregatedModel x t m round path strategy keyVersion clientCount
        weightDimension now).store t' m' =
      if normalizeTenant t' = normalizeTenant t ∧ normalizeModel m' = normalizeModel m then
        nextVersion x.models (normalizeTenant t) (normalizeModel m)
      else getActiveModelVersion x t' m' := by
  have hafter := record_numbered h t m round path strategy keyVersion clientCount weightDimension now
  rw [activeVersion_of_numbered hafter, lastActivated_append]
  by_cases hscope : normalizeTenant t' = normalizeTenant t ∧ normalizeModel m' = normalizeModel m
  · rw [if_pos hscope, if_pos hscope]
    rfl
  · rw [if_neg hscope, if_neg hscope, activeVersion_of_numbered h]

theorem step_activeVersion (h : Process.step d s a = some s')
    (hproceed : ∀ o, a = .proceed o → submitting s = none)
    (hrollback : ∀ q peer now, a ≠ .rollbackModel q peer now)
    (hrestart : ∀ start, a ≠ .restart start) (scope : String × String) :
    activeVersion s' scope = activeVersion s scope := by
  apply activeVersion_same
  cases step_modelStep h with
  | kept hkept => exact hkept.models
  | submit hidle => rfl
  | proceed hc =>
    rw [hproceed _ rfl] at hc
    cases hc
  | rollback htarget => exact absurd rfl (hrollback _ _ _)
  | unreadable hcall hread => rfl
  | readable hcall hread => rfl
  | restored hcall hfree => rfl
  | rotated hrotated => rfl
  | restart hs => exact absurd rfl (hrestart _)

theorem step_of_submitting {c : Submitting F} {o : Oracle F} (hc : submitting s = some c)
    (h : Process.step d s (.proceed o) = some s') :
    s' = proceedSubmit d s c.q c.peer c.serial o c.point := by
  have hcall := federated_of_submitting hc
  simp only [Process.step, Process.proceed, hcall, Option.some.injEq] at h
  exact h.symm

theorem recording_activeVersion (hr : StoreReached s) {c : Submitting F} {o : Oracle F}
    {job : Option PersistedTrainingJobRecord} {p : Prepared F} {v : ℤ}
    (hpoint : c.point = .record job p v) (scope : String × String) :
    activeVersion (proceedSubmit d s c.q c.peer c.serial o c.point) scope =
      if normalizeTenant scope.1 = normalizeTenant c.q.tenantId ∧
          normalizeModel scope.2 = normalizeModel c.q.modelId
        then nextVersion s.world.store.models (normalizeTenant c.q.tenantId)
          (normalizeModel c.q.modelId)
      else activeVersion s scope := by
  obtain ⟨log, hlog⟩ := reached_numbered hr
  have hafter := record_activeVersion (hlog scope.1 scope.2) (normalizeTenant c.q.tenantId)
    (normalizeModel c.q.modelId) c.q.roundIndex p.checkpointPath d.config.aggregationStrategy v
    p.clientCount p.result.length o.now
  rw [normalizeTenant_idem, normalizeModel_idem] at hafter
  rw [hpoint]
  exact hafter

theorem proceed_activeVersion {c : Submitting F} {o : Oracle F}
    (hpoint : ∀ job p v, c.point ≠ .record job p v) (scope : String × String) :
    activeVersion (proceedSubmit d s c.q c.peer c.serial o c.point) scope =
      activeVersion s scope := by
  apply activeVersion_same
  have hstep := proceed_submitStep (d := d) (s := s) c o
  generalize proceedSubmit d s c.q c.peer c.serial o c.point = s' at hstep
  cases hstep with
  | on hon hview hnext => exact congrArg ModelView.models hview
  | removed hadd haggregates htorn hview hnext => exact congrArg ModelView.models hview
  | written hadd haggregates hwritten hpath hview hnext => exact congrArg ModelView.models hview
  | keyVersion hkeyVersion hview hnext => exact congrArg ModelView.models hview
  | recorded hrecord hview hnext => exact absurd hrecord (hpoint _ _ _)
  | published hpublish hview hnext => exact congrArg ModelView.models hview

end PqFl.ActiveVersions
