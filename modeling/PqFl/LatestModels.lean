import PqFl.SubmissionTracking

/-!
# The latest models of the buffer

Two steps write `latest_models_`: the publication of an aggregate and the end
of a rollback. Every other step leaves it, and a restart rebuilds it.
-/

set_option autoImplicit false

namespace PqFl.LatestModels
open PqFl.Identifiers PqFl.StoreRecords PqFl.Aggregation PqFl.Buffer PqFl.Services PqFl.Process
open PqFl.SubmissionTracking

variable {F : Type} {d : Deployment F}

theorem lookup_insert_ite {V : Type} (l : AList (fun _ : String => V)) (key scope : String) (v : V) :
    (l.insert key v).lookup scope = if scope = key then some v else l.lookup scope := by
  by_cases h : scope = key
  · subst h
    rw [if_pos rfl, AList.lookup_insert]
  · rw [if_neg h, AList.lookup_insert_ne h]

variable [FloatArith F]

def putBySubmission : FederatedCall F → Option (String × LatestModelSnapshot F)
  | .submitWeights q _ _ (.publish _ p modelVersion) =>
    some (scopeKey (normalizeTenant q.tenantId) (normalizeModel q.modelId),
      ⟨q.roundIndex, modelVersion, p.result⟩)
  | _ => none

def putByRollback : Call F → Option (String × LatestModelSnapshot F)
  | .rollbackModel target (.restore weights) =>
    some (scopeKey target.tenantId target.modelId, ⟨target.latestRound, target.version, weights⟩)
  | _ => none

/-- The scope and the model that a step puts into the buffer. -/
def putModel (s : Server F) : Action F → Option (String × LatestModelSnapshot F)
  | .proceed _ => s.federated.bind putBySubmission
  | .call i _ => s.calls[i]?.bind putByRollback
  | _ => none

def latestModel (s : Server F) (scope : String) : Option (LatestModelSnapshot F) :=
  s.world.buffer.latestModels.lookup scope

def afterPut (s : Server F) (a : Action F) (scope : String) : Option (LatestModelSnapshot F) :=
  match putModel s a with
  | none => latestModel s scope
  | some (key, model) => if scope = key then some model else latestModel s scope

theorem stepSubmitWeights_latestModels {w : World F} {q : SubmitWeightsRequest} {peer : Peer}
    {o : Oracle F} {p : SubmitPoint F} (h : ∀ job pr v, p ≠ .publish job pr v) :
    (stepSubmitWeights d w q peer o p).1.buffer.latestModels = w.buffer.latestModels := by
  rcases stepSubmitWeights_buffer (d := d) w q peer o p with
    ⟨job, weights, rfl⟩ | ⟨job, pr, v, rfl⟩ | hsame
  · exact (addWeight_added _ _ _ _ _ _ _).sameBut.latest
  · exact absurd rfl (h job pr v)
  · rw [hsame]

theorem proceedSubmit_latestModel {s : Server F} {q : SubmitWeightsRequest} {peer : Peer}
    {serial : ℕ} {o : Oracle F} {p : SubmitPoint F} (h : ∀ job pr v, p ≠ .publish job pr v)
    (scope : String) :
    latestModel (proceedSubmit d s q peer serial o p) scope = latestModel s scope := by
  show (stepSubmitWeights d s.world q peer o p).1.buffer.latestModels.lookup scope = _
  rw [stepSubmitWeights_latestModels h]
  rfl

theorem proceed_latestModel {s s' : Server F} {o : Oracle F} (h : proceed d s o = some s')
    (scope : String) : latestModel s' scope = afterPut s (.proceed o) scope := by
  unfold proceed at h
  simp only [afterPut, putModel]
  cases hf : s.federated with
  | none =>
    rw [hf] at h
    cases h
  | some call =>
    rw [hf] at h
    cases call with
    | registerClient info p =>
      cases h
      cases p <;> rfl
    | trainingConfig q p =>
      cases h
      cases p <;> rfl
    | submitWeights q peer serial p =>
      cases h
      cases p with
      | publish job pr v => exact lookup_insert_ite _ _ _ _
      | _ =>
        apply proceedSubmit_latestModel
        intro _ _ _ h
        cases h

theorem stepCallAt_latestModel {s s' : Server F} {i now : ℕ} (h : stepCallAt d s i now = some s')
    (scope : String) : latestModel s' scope = afterPut s (.call i now) scope := by
  unfold stepCallAt at h
  obtain ⟨call, hcall, hrest⟩ := Option.bind_eq_some_iff.mp h
  obtain ⟨next, hnext, rfl⟩ := Option.map_eq_some_iff.mp hrest
  simp only [afterPut, putModel, hcall, Option.bind_some]
  cases call with
  | registerWorker q peer p =>
    cases hnext
    cases p <;> rfl
  | leaseTrainingTask q worker p =>
    cases hnext
    cases p <;> rfl
  | rollbackModel target p =>
    cases p with
    | readCheckpoint =>
      cases hnext
      rfl
    | restore weights =>
      simp only [stepCall] at hnext
      split at hnext
      · cases hnext
      · cases hnext
        exact lookup_insert_ite _ _ _ _
  | rotateAtRestKey keyVersion =>
    cases hnext
    rfl

theorem step_latestModel {s s' : Server F} {a : Action F} (h : step d s a = some s')
    (hrestart : ∀ start, a ≠ .restart start) (scope : String) :
    latestModel s' scope = afterPut s a scope := by
  cases step_stepped h with
  | @refused a hrequest =>
    cases a with
    | proceed o => cases hrequest
    | call i now => cases hrequest
    | restart start => cases hrequest
    | _ => rfl
  | registerClient hidle hpasses => rfl
  | getTrainingConfig hidle hpasses => rfl
  | submitWeights hidle => rfl
  | registering hcall => exact proceed_latestModel h scope
  | configuring hcall => exact proceed_latestModel h scope
  | submitting hcall => exact proceed_latestModel h scope
  | registerWorker hworker hpasses => rfl
  | leaseTrainingTask hworker hpasses hknown => rfl
  | reportTaskStatus hworker hpasses => rfl
  | heartbeat hworker hpasses => rfl
  | upsertDataset hadmin hpasses => rfl
  | createTrainingJob hadmin hpasses hdataset => rfl
  | rollbackMissed hadmin hpasses hmissed => rfl
  | rollbackModel hadmin hpasses htarget => rfl
  | rotateAtRestKey hadmin hrotated => rfl
  | call hcall hnext => exact stepCallAt_latestModel h scope
  | restart hs => exact absurd rfl (hrestart _)

end PqFl.LatestModels
