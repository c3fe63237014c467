import PqFl.Server

/-!
# The inversion of a step

What a step of the server does, with the checks that its request has passed. A
request that a check refuses leaves the server as it was.
-/

set_option autoImplicit false

namespace PqFl.Process
open PqFl.Identifiers PqFl.StoreRecords PqFl.StateStore PqFl.ClientRegistry PqFl.Crypto
open PqFl.Aggregation PqFl.Buffer PqFl.Services

variable {F : Type} [FloatArith F]

def isRequest : Action F → Bool
  | .proceed _ | .call _ _ | .restart _ => false
  | _ => true

inductive Stepped (d : Deployment F) (s : Server F) : Action F → Server F → Prop
  | refused {a : Action F} (hrequest : isRequest a = true) : Stepped d s a s
  | registerClient {q : RegisterClientRequest} {peer : Peer} {now : ℕ} (hidle : s.federated = none)
      (hpasses : rejectsRegisterClient q peer = false) :
    Stepped d s (.registerClient q peer now) { s with
      world := { s.world with
        registry := (register s.world.registry
          (clientInfo q peer (Timestamps.currentTimestamp now))).2 }
      federated := some (.registerClient (clientInfo q peer (Timestamps.currentTimestamp now))
        (.latestModel (register s.world.registry
          (clientInfo q peer (Timestamps.currentTimestamp now))).1)) }
  | getTrainingConfig {q : TrainingConfigRequest} {peer : Peer} (hidle : s.federated = none)
      (hpasses : rejectsTrainingConfig s.world.registry q peer = false) :
    Stepped d s (.getTrainingConfig q peer) { s with
      federated := some (.trainingConfig q .modelVersion) }
  | submitWeights {q : SubmitWeightsRequest} {peer : Peer} (hidle : s.federated = none) :
    Stepped d s (.submitWeights q peer) (startSubmit s q peer)
  | registering {o : Oracle F} {info : ClientInfo} {p : RegisterClientPoint}
      (hcall : s.federated = some (.registerClient info p)) :
    Stepped d s (.proceed o) { s with
      world := (stepRegisterClient s.world info o.now p).1
      federated := (stepRegisterClient s.world info o.now p).2.map (.registerClient info) }
  | configuring {o : Oracle F} {q : TrainingConfigRequest} {p : TrainingConfigPoint}
      (hcall : s.federated = some (.trainingConfig q p)) :
    Stepped d s (.proceed o) { s with
      world := (stepTrainingConfig d.config s.world q o.now p).1
      federated := (stepTrainingConfig d.config s.world q o.now p).2.map (.trainingConfig q) }
  | submitting {o : Oracle F} {q : SubmitWeightsRequest} {peer : Peer} {serial : ℕ}
      {p : SubmitPoint F} (hcall : s.federated = some (.submitWeights q peer serial p)) :
    Stepped d s (.proceed o) (proceedSubmit d s q peer serial o p)
  | registerWorker {q : WorkerRegistration} {peer : Peer} {now : ℕ}
      (hworker : isAuthorizedWorker d peer = true) (hpasses : checkRegisterWorker q = "") :
    Stepped d s (.registerWorker q peer now) { s with
      world := s.world.after (upsertWorker s.world.store
        (workerRecord q (Timestamps.currentTimestamp now)) now)
      calls := s.calls ++ [.registerWorker q peer .isRegistered] }
  | leaseTrainingTask {q : WorkerTaskLeaseRequest} {peer : Peer} {worker : PersistedWorkerRecord}
      (hworker : isAuthorizedWorker d peer = true)
      (hpasses : validateIdentifier q.workerId "worker_id" false = "")
      (hknown : getWorker s.world.store q.workerId = some worker) :
    Stepped d s (.leaseTrainingTask q peer) { s with
      calls := s.calls ++ [.leaseTrainingTask q worker .modelVersion] }
  | reportTaskStatus {q : WorkerTaskStatusUpdate} {peer : Peer} {now : ℕ}
      (hworker : isAuthorizedWorker d peer = true)
      (hpasses : validateIdentifier q.workerId "worker_id" false = "" ∧
        validateIdentifier q.taskId "task_id" false = "" ∧ isAllowedTaskStatus q.status = true) :
    Stepped d s (.reportTaskStatus q peer now) { s with
      world := s.world.after (updateWorkerTaskStatus s.world.store q.workerId q.taskId
        (some q.status) q.detail q.progressPercent now) }
  | heartbeat {q : WorkerHeartbeat} {peer : Peer} {now : ℕ}
      (hworker : isAuthorizedWorker d peer = true)
      (hpasses : validateIdentifier q.workerId "worker_id" false = "") :
    Stepped d s (.heartbeat q peer now) { s with
      world := s.world.after (recordWorkerHeartbeat s.world.store q.workerId q.activeTaskId
        q.detail now) }
  | upsertDataset {q : PersistedDatasetRecord} {peer : Peer} {now : ℕ}
      (hadmin : isAuthorizedAdmin d peer = true) (hpasses : checkUpsertDataset q = "") :
    Stepped d s (.upsertDataset q peer now) { s with
      world := s.world.after (StateStore.upsertDataset s.world.store { q with createdAt := "" }
        now) }
  | createTrainingJob {q : CreateTrainingJobRequest} {peer : Peer} {now : ℕ}
      (hadmin : isAuthorizedAdmin d peer = true) (hpasses : checkCreateTrainingJob q = "")
      (hdataset : (getDataset s.world.store q.tenantId q.modelId q.datasetId).isSome = true) :
    Stepped d s (.createTrainingJob q peer now) { s with
      world := s.world.after (StateStore.createTrainingJob s.world.store (requestedJob q) now) }
  | rollbackMissed {q : RollbackModelRequest} {peer : Peer} {now : ℕ}
      (hadmin : isAuthorizedAdmin d peer = true) (hpasses : checkRollbackModel q = "")
      (hmissed : (StateStore.rollbackModel s.world.store q.tenantId q.modelId q.targetVersion
        now).value = none) :
    Stepped d s (.rollbackModel q peer now) { s with
      world := s.world.after
        (StateStore.rollbackModel s.world.store q.tenantId q.modelId q.targetVersion now) }
  | rollbackModel {q : RollbackModelRequest} {peer : Peer} {now : ℕ}
      {target : PersistedModelRecord} (hadmin : isAuthorizedAdmin d peer = true)
      (hpasses : checkRollbackModel q = "")
      (htarget : (StateStore.rollbackModel s.world.store q.tenantId q.modelId q.targetVersion
        now).value = some target) :
    Stepped d s (.rollbackModel q peer now) { s with
      world := s.world.after
        (StateStore.rollbackModel s.world.store q.tenantId q.modelId q.targetVersion now)
      calls := s.calls ++ [.rollbackModel target .readCheckpoint] }
  | rotateAtRestKey {keyBytes : Key} {peer : Peer} {rotated : CryptoEngine × KeyFiles}
      (hadmin : isAuthorizedAdmin d peer = true)
      (hrotated : rotateMasterKey s.world.crypto s.world.keyFiles keyBytes = some rotated) :
    Stepped d s (.rotateAtRestKey keyBytes peer) { s with
      world := { s.world with crypto := rotated.1, keyFiles := rotated.2 }
      calls := s.calls ++ [.rotateAtRestKey rotated.1.activeKeyVersion] }
  | call {i now : ℕ} {call : Call F} {next : World F × Option (Call F) × List (Event F)}
      (hcall : s.calls[i]? = some call) (hnext : stepCall d s now call = some next) :
    Stepped d s (.call i now) { s with
      world := next.1
      calls := replaceCall s.calls i next.2.1
      history := s.history ++ next.2.2 }
  | restart {start : Start} {s' : Server F} (hrestart : restart d.primitives s start = some s') :
    Stepped d s (.restart start) s'

theorem step_stepped {d : Deployment F} {s s' : Server F} {a : Action F}
    (h : step d s a = some s') : Stepped d s a s' := by
  cases a with
  | registerClient q peer now =>
    simp only [step] at h
    split at h
    · cases h
    rename_i hidle
    cases h
    rw [startRegisterClient]
    split
    · exact .refused rfl
    · rename_i hpasses
      exact .registerClient (by simpa using hidle) (by simpa using hpasses)
  | getTrainingConfig q peer =>
    simp only [step] at h
    split at h
    · cases h
    rename_i hidle
    cases h
    rw [startTrainingConfig]
    split
    · exact .refused rfl
    · rename_i hpasses
      exact .getTrainingConfig (by simpa using hidle) (by simpa using hpasses)
  | submitWeights q peer =>
    simp only [step] at h
    split at h
    · cases h
    rename_i hidle
    cases h
    exact .submitWeights (by simpa using hidle)
  | proceed o =>
    simp only [step, proceed] at h
    split at h
    · cases h
    · rename_i info p hcall
      cases h
      exact .registering hcall
    · rename_i q p hcall
      cases h
      exact .configuring hcall
    · rename_i q peer serial p hcall
      cases h
      exact .submitting hcall
  | registerWorker q peer now =>
    cases h
    rw [startRegisterWorker]
    split
    · exact .refused rfl
    · rename_i hpasses
      simp only [Bool.or_eq_true, Bool.not_eq_true', bne_iff_ne, ne_eq, not_or, not_not,
        Bool.not_eq_false] at hpasses
      exact .registerWorker hpasses.1 hpasses.2
  | leaseTrainingTask q peer =>
    cases h
    rw [startLeaseTrainingTask]
    split
    · exact .refused rfl
    · rename_i hpasses
      simp only [Bool.or_eq_true, Bool.not_eq_true', bne_iff_ne, ne_eq, not_or, not_not,
        Bool.not_eq_false] at hpasses
      split
      · exact .refused rfl
      · rename_i worker hknown
        exact .leaseTrainingTask hpasses.1 hpasses.2 hknown
  | reportTaskStatus q peer now =>
    cases h
    rw [reportStatus]
    split
    · exact .refused rfl
    · rename_i hpasses
      simp only [Bool.or_eq_true, Bool.not_eq_true', bne_iff_ne, ne_eq, not_or, not_not,
        Bool.not_eq_false] at hpasses
      obtain ⟨⟨⟨hworker, hid⟩, htask⟩, hstatus⟩ := hpasses
      exact .reportTaskStatus hworker ⟨hid, htask, hstatus⟩
  | heartbeat q peer now =>
    cases h
    rw [beat]
    split
    · exact .refused rfl
    · rename_i hpasses
      simp only [Bool.or_eq_true, Bool.not_eq_true', bne_iff_ne, ne_eq, not_or, not_not,
        Bool.not_eq_false] at hpasses
      exact .heartbeat hpasses.1 hpasses.2
  | upsertDataset q peer now =>
    cases h
    rw [addDataset]
    split
    · exact .refused rfl
    · rename_i hpasses
      simp only [Bool.or_eq_true, Bool.not_eq_true', bne_iff_ne, ne_eq, not_or, not_not,
        Bool.not_eq_false] at hpasses
      exact .upsertDataset hpasses.1 hpasses.2
  | createTrainingJob q peer now =>
    cases h
    rw [createJob]
    split
    · exact .refused rfl
    · rename_i hpasses
      simp only [Bool.or_eq_true, Bool.not_eq_true', bne_iff_ne, ne_eq, not_or, not_not,
        Bool.not_eq_false, Option.isNone_iff_eq_none] at hpasses
      exact .createTrainingJob hpasses.1.1 hpasses.1.2 (Option.isSome_iff_ne_none.mpr hpasses.2)
  | rollbackModel q peer now =>
    cases h
    rw [startRollbackModel]
    split
    · exact .refused rfl
    · rename_i hpasses
      simp only [Bool.or_eq_true, Bool.not_eq_true', bne_iff_ne, ne_eq, not_or, not_not,
        Bool.not_eq_false] at hpasses
      dsimp only
      split
      · rename_i hmissed
        rw [List.append_nil]
        exact .rollbackMissed hpasses.1 hpasses.2 hmissed
      · rename_i target htarget
        exact .rollbackModel hpasses.1 hpasses.2 htarget
  | rotateAtRestKey keyBytes peer =>
    simp only [step, startRotateAtRestKey] at h
    split at h
    · cases h
      exact .refused rfl
    · rename_i hadmin
      obtain ⟨rotated, hrotated, rfl⟩ := Option.map_eq_some_iff.mp h
      exact .rotateAtRestKey (by simpa using hadmin) hrotated
  | call i now =>
    obtain ⟨call, hcall, hrest⟩ := Option.bind_eq_some_iff.mp h
    obtain ⟨next, hnext, rfl⟩ := Option.map_eq_some_iff.mp hrest
    exact .call hcall hnext
  | restart start => exact .restart h

theorem step_lastCall {d : Deployment F} {s : Server F} {calls : List (Call F)} {call : Call F}
    (hcalls : s.calls = calls ++ [call]) {now : ℕ}
    {next : World F × Option (Call F) × List (Event F)} (h : stepCall d s now call = some next) :
    step d s (.call calls.length now) = some { s with
      world := next.1
      calls := calls ++ next.2.1.toList
      history := s.history ++ next.2.2 } := by
  have hlast : s.calls[calls.length]? = some call := by
    rw [hcalls]
    exact List.getElem?_concat_length
  have hreplaced : replaceCall s.calls calls.length next.2.1 = calls ++ next.2.1.toList := by
    rw [hcalls]
    cases next.2.1 with
    | none =>
      rw [replaceCall, List.eraseIdx_append_of_length_le le_rfl, Nat.sub_self]
      rfl
    | some call' =>
      rw [replaceCall, List.set_append_right _ _ le_rfl, Nat.sub_self]
      rfl
  simp only [step, stepCallAt, hlast, Option.bind_some, h, Option.map_some, hreplaced]

end PqFl.Process
