import PqFl.ClientNames
import PqFl.Configuration
import PqFl.ServerSteps
import PqFl.TaskLifecycle

/-!
# The trainer of a worker

A worker is registered together with a client, its trainer. The worker is
written before the binding of the trainer is looked at, and the answer does not
depend on what that look finds.
-/

set_option autoImplicit false

namespace PqFl.TrainerBindings
open PqFl.Identifiers PqFl.Timestamps PqFl.StoreRecords PqFl.StateStore PqFl.ClientRegistry
open PqFl.Buffer PqFl.Services PqFl.Process PqFl.CertificateBinding PqFl.Runs
open PqFl.Aggregation PqFl.Floats PqFl.Configuration PqFl.TaskLifecycle

variable {F : Type}

structure WorkerRegistrationResponse where
  accepted : Bool := false
  workerId : String := ""
  trainerClientId : String := ""
  serverTime : String := ""
  message : String := ""
  deriving DecidableEq

inductive Refusal where
  | permissionDenied (message : String)
  | invalidArgument (message : String)
  deriving DecidableEq

/-- `RegisterWorker` from its checks to the answer. -/
def serveRegisterWorker (d : Deployment F) (w : World F) (q : WorkerRegistration) (peer : Peer)
    (now : ℕ) : World F × Except Refusal WorkerRegistrationResponse :=
  if !isAuthorizedWorker d peer then (w, .error (.permissionDenied "Worker certificate required"))
  else if checkRegisterWorker q ≠ "" then (w, .error (.invalidArgument (checkRegisterWorker q)))
  else
    let worker := upsertWorker w.store (workerRecord q (currentTimestamp now)) now
    let w := w.after worker
    let answer : WorkerRegistrationResponse := {
      accepted := true
      workerId := worker.value.workerId
      trainerClientId := worker.value.trainerClientId
      serverTime := currentTimestamp now
      message := "Worker registered and trainer client is ready" }
    let info := trainerInfo q peer (currentTimestamp now)
    if !isRegistered w.registry (normalizeTenant q.tenantId) (normalizeModel q.modelId)
        (trainerClientId q) then
      let w := { w with registry := (register w.registry info).2 }
      (w.after (recordClientRegistration w.store (clientRecord info) now), .ok answer)
    else
      let bound := bindPeerIdentityIfMissing w.registry (normalizeTenant q.tenantId)
        (normalizeModel q.modelId) (trainerClientId q) (normalizePeerIdentity peer.identity)
      let w := { w with registry := bound.2 }
      if bound.1 then
        (w.after (recordClientRegistration w.store (clientRecord info) now), .ok answer)
      else (w, .ok answer)

theorem serveRegisterWorker_steps [FloatArith F] {d : Deployment F} {s : Server F}
    (q : WorkerRegistration) (peer : Peer) (now : ℕ) : ∃ n s',
    exec (Process.step d) (.registerWorker q peer now ::
        List.replicate n (.call s.calls.length now)) s = some s' ∧
      s'.world = (serveRegisterWorker d s.world q peer now).1 ∧ s'.calls = s.calls := by
  have hstart : Process.step d s (.registerWorker q peer now) =
      some (startRegisterWorker d s q peer now) := rfl
  unfold startRegisterWorker at hstart
  unfold serveRegisterWorker
  by_cases hworker : isAuthorizedWorker d peer = true
  swap
  · rw [if_pos (by simp [hworker])] at hstart
    rw [if_pos (by simp [hworker])]
    refine ⟨0, s, ?_, rfl, rfl⟩
    simp only [List.replicate, exec, hstart, Option.bind_some]
  by_cases hpasses : checkRegisterWorker q = ""
  swap
  · rw [if_pos (by simp [hpasses])] at hstart
    rw [if_neg (by simp [hworker]), if_pos hpasses]
    refine ⟨0, s, ?_, rfl, rfl⟩
    simp only [List.replicate, exec, hstart, Option.bind_some]
  rw [if_neg (by simp [hworker, hpasses])] at hstart
  rw [if_neg (by simp [hworker]), if_neg (not_not.mpr hpasses)]
  dsimp only
  generalize s.world.after (upsertWorker s.world.store (workerRecord q (currentTimestamp now)) now) =
    w at hstart ⊢
  -- the server after each of its calls
  let at_ (w : World F) (history : List (Event F)) (p : Option RegisterWorkerPoint) : Server F :=
    { s with
      world := w
      calls := s.calls ++ (p.map (Call.registerWorker q peer)).toList
      history := history }
  have hnext : ∀ (w : World F) (history : List (Event F)) (p : RegisterWorkerPoint),
      Process.step d (at_ w history (some p)) (.call s.calls.length now) =
        some (at_ (stepRegisterWorker w q peer now p).1 (history ++ [])
          (stepRegisterWorker w q peer now p).2) := by
    intro w history p
    exact step_lastCall (s := at_ w history (some p)) rfl rfl
  have hstarted : Process.step d s (.registerWorker q peer now) =
      some (at_ w s.history (some .isRegistered)) := hstart
  have hlooked := hnext w s.history .isRegistered
  cases hknown : isRegistered w.registry (normalizeTenant q.tenantId) (normalizeModel q.modelId)
      (trainerClientId q) with
  | false =>
    rw [stepRegisterWorker, hknown] at hlooked
    rw [if_pos (by decide)]
    refine ⟨3, at_ _ (s.history ++ [] ++ [] ++ []) none, ?_, rfl, List.append_nil _⟩
    simp only [List.replicate, exec, hstarted, hlooked, Option.bind_some, Bool.false_eq_true,
      if_false]
    rw [hnext, Option.bind_some, stepRegisterWorker]
    dsimp only
    rw [hnext, Option.bind_some, stepRegisterWorker]
    rfl
  | true =>
    rw [stepRegisterWorker, hknown] at hlooked
    rw [if_neg (by decide)]
    have hbound := hnext w (s.history ++ []) .bind
    rw [stepRegisterWorker] at hbound
    dsimp only at hbound
    by_cases hanswer : (bindPeerIdentityIfMissing w.registry (normalizeTenant q.tenantId)
      (normalizeModel q.modelId) (trainerClientId q) (normalizePeerIdentity peer.identity)).1 = true
    · rw [if_pos hanswer] at hbound
      rw [if_pos hanswer]
      refine ⟨3, at_ _ (s.history ++ [] ++ [] ++ []) none, ?_, rfl, List.append_nil _⟩
      simp only [List.replicate, exec, hstarted, hlooked, if_true, hbound, Option.bind_some]
      rw [hnext, Option.bind_some, stepRegisterWorker]
    · rw [if_neg hanswer] at hbound
      rw [if_neg hanswer]
      refine ⟨2, at_ _ (s.history ++ [] ++ []) none, ?_, rfl, List.append_nil _⟩
      simp only [List.replicate, exec, hstarted, hlooked, if_true, hbound, Option.bind_some]

def trainerKey (q : WorkerRegistration) : String :=
  clientKey (normalizeTenant q.tenantId) (normalizeModel q.modelId) (trainerClientId q)

def passesChecks (d : Deployment F) (q : WorkerRegistration) (peer : Peer) : Bool :=
  isAuthorizedWorker d peer && checkRegisterWorker q == ""

structure TrainerReady (d : Deployment F) (w : World F) (q : WorkerRegistration) (peer : Peer)
    (now : ℕ) : Prop where
  usable : ∀ response, (serveRegisterWorker d w q peer now).2 = .ok response →
    response.accepted = true →
      isRegisteredForPeer (serveRegisterWorker d w q peer now).1.registry
        (normalizeTenant q.tenantId) (normalizeModel q.modelId) (trainerClientId q)
        (normalizePeerIdentity peer.identity) = true
  submits : ∀ response, (serveRegisterWorker d w q peer now).2 = .ok response →
    response.accepted = true → ∀ q' : SubmitWeightsRequest,
      normalizeTenant q'.tenantId = normalizeTenant q.tenantId →
      normalizeModel q'.modelId = normalizeModel q.modelId → q'.clientId = trainerClientId q →
        submitIsRegistered (serveRegisterWorker d w q peer now).1.registry q' peer = true
  refuses : ∀ i, boundIdentity w.registry (trainerKey q) = some i → i ≠ "" →
    i ≠ normalizePeerIdentity peer.identity →
      (∃ refusal, (serveRegisterWorker d w q peer now).2 = .error refusal) ∧
        (serveRegisterWorker d w q peer now).1.store.workers = w.store.workers ∧
        (serveRegisterWorker d w q peer now).1.store.clients = w.store.clients

theorem serve_stopped {d : Deployment F} {q : WorkerRegistration} {peer : Peer}
    (h : passesChecks d q peer = false) (w : World F) (now : ℕ) :
    (∃ refusal, (serveRegisterWorker d w q peer now).2 = .error refusal) ∧
      (serveRegisterWorker d w q peer now).1 = w := by
  unfold serveRegisterWorker
  by_cases hworker : isAuthorizedWorker d peer = true
  · have hfails : checkRegisterWorker q ≠ "" := by
      intro hpasses
      simp [passesChecks, hworker, hpasses] at h
    rw [if_neg (by simp [hworker]), if_pos hfails]
    exact ⟨⟨_, rfl⟩, rfl⟩
  · rw [if_pos (by simp [hworker])]
    exact ⟨⟨_, rfl⟩, rfl⟩

/-- Past the checks every request is accepted. The trainer gets the identity of the
caller if it has none. -/
theorem serve_passed {d : Deployment F} {q : WorkerRegistration} {peer : Peer}
    (h : passesChecks d q peer = true) (w : World F) (now : ℕ) :
    (∃ response, (serveRegisterWorker d w q peer now).2 = .ok response ∧
        response.accepted = true) ∧
      boundIdentity (serveRegisterWorker d w q peer now).1.registry (trainerKey q) =
        if (boundIdentity w.registry (trainerKey q)).getD "" = "" then
          some (normalizePeerIdentity peer.identity)
        else boundIdentity w.registry (trainerKey q) := by
  simp only [passesChecks, Bool.and_eq_true, beq_iff_eq] at h
  unfold serveRegisterWorker
  rw [if_neg (by simp [h.1]), if_neg (not_not.mpr h.2)]
  dsimp only
  have hsame : (w.after (upsertWorker w.store (workerRecord q (currentTimestamp now))
    now)).registry = w.registry := rfl
  rw [hsame]
  have hregistered := register_bindings w.registry
    (trainerInfo q peer (currentTimestamp now)) (trainerKey q)
  have hbound := bindPeerIdentityIfMissing_bindings w.registry (normalizeTenant q.tenantId)
    (normalizeModel q.modelId) (trainerClientId q) (normalizePeerIdentity peer.identity)
    (trainerKey q)
  cases hidentity : boundIdentity w.registry (trainerKey q) with
  | none =>
    have hknown : isRegistered w.registry (normalizeTenant q.tenantId) (normalizeModel q.modelId)
        (trainerClientId q) = false := by
      rw [isRegistered_eq]
      exact congrArg Option.isSome hidentity
    rw [hidentity, if_pos ⟨rfl, rfl⟩] at hregistered
    have hbranch : (!isRegistered w.registry (normalizeTenant q.tenantId) (normalizeModel q.modelId)
        (trainerClientId q)) = true := by
      rw [hknown]
      rfl
    rw [if_pos hbranch]
    exact ⟨⟨_, rfl, rfl⟩, hregistered⟩
  | some i =>
    have hknown : isRegistered w.registry (normalizeTenant q.tenantId) (normalizeModel q.modelId)
        (trainerClientId q) = true := by
      rw [isRegistered_eq]
      exact congrArg Option.isSome hidentity
    have hbranch : ¬ (!isRegistered w.registry (normalizeTenant q.tenantId)
        (normalizeModel q.modelId) (trainerClientId q)) = true := by
      rw [hknown]
      decide
    rw [if_neg hbranch]
    have hafter : boundIdentity (bindPeerIdentityIfMissing w.registry (normalizeTenant q.tenantId)
        (normalizeModel q.modelId) (trainerClientId q)
        (normalizePeerIdentity peer.identity)).2 (trainerKey q) =
        if i = "" then some (normalizePeerIdentity peer.identity) else some i := by
      rw [hbound, hidentity]
      by_cases hempty : i = ""
      · rw [if_pos ⟨rfl, by rw [hempty]⟩, if_pos hempty]
      · rw [if_neg (fun hboth => hempty (Option.some.inj hboth.2)), if_neg hempty]
    split
    · exact ⟨⟨_, rfl, rfl⟩, hafter⟩
    · exact ⟨⟨_, rfl, rfl⟩, hafter⟩

/-- A registration past the checks does its duty to the trainer exactly when the caller
has an identity and the trainer is not bound to another one. -/
theorem trainer_ready_iff (d : Deployment F) (w : World F) (q : WorkerRegistration) (peer : Peer)
    (now : ℕ) : TrainerReady d w q peer now ↔
      (passesChecks d q peer = true →
        normalizePeerIdentity peer.identity ≠ "" ∧
        ∀ i, boundIdentity w.registry (trainerKey q) = some i →
          i = "" ∨ i = normalizePeerIdentity peer.identity) := by
  cases hpasses : passesChecks d q peer with
  | false =>
    obtain ⟨⟨refusal, hrefused⟩, hworld⟩ := serve_stopped hpasses w now
    constructor
    · intro _ habsurd
      cases habsurd
    · intro _
      constructor
      · intro response hok
        rw [hrefused] at hok
        cases hok
      · intro response hok
        rw [hrefused] at hok
        cases hok
      · intro i _ _ _
        rw [hworld]
        exact ⟨⟨refusal, hrefused⟩, rfl, rfl⟩
  | true =>
    obtain ⟨⟨response, hanswer, haccepted⟩, hbound⟩ := serve_passed hpasses w now
    constructor
    · intro h _
      have husable := h.usable response hanswer haccepted
      rw [isRegisteredForPeer_eq, Bool.and_eq_true, bne_iff_ne] at husable
      refine ⟨husable.1, ?_⟩
      intro i hi
      by_contra hother
      push Not at hother
      obtain ⟨⟨refusal, hrefused⟩, -⟩ := h.refuses i hi hother.1 hother.2
      rw [hanswer] at hrefused
      cases hrefused
    · intro h
      obtain ⟨hidentity, hnot⟩ := h rfl
      have hready : isRegisteredForPeer (serveRegisterWorker d w q peer now).1.registry
          (normalizeTenant q.tenantId) (normalizeModel q.modelId) (trainerClientId q)
          (normalizePeerIdentity peer.identity) = true := by
        rw [isRegisteredForPeer_eq, Bool.and_eq_true, bne_iff_ne, beq_iff_eq]
        refine ⟨hidentity, ?_⟩
        show boundIdentity _ (trainerKey q) = _
        rw [hbound]
        cases hi : boundIdentity w.registry (trainerKey q) with
        | none => rfl
        | some i =>
          rcases hnot i hi with rfl | rfl
          · rfl
          · exact if_neg hidentity
      constructor
      · intro _ _ _
        exact hready
      · intro _ _ _ q' htenant hmodel hclient
        rw [submitIsRegistered, htenant, hmodel, hclient]
        exact hready
      · intro i hi hsome hother
        rcases hnot i hi with hempty | hsame
        · exact absurd hempty hsome
        · exact absurd hsame hother

def foreignWorker : WorkerRegistration := ⟨"w", "a", "t", "m", "h", "l", 1, [], 1⟩

/-- The client "a" has registered itself with another certificate. The worker is accepted
and recorded, and its submissions for the trainer will be refused. -/
theorem foreign_trainer_accepted : ∃ s, Reaches (Process.step standardDeployment) Free
      (initial standardDeployment firstStart) s ∧
    (serveRegisterWorker standardDeployment s.world foreignWorker workerPeer 1).2 = .ok {
      accepted := true
      workerId := "w"
      trainerClientId := "a"
      serverTime := currentTimestamp 1
      message := "Worker registered and trainer client is ready" } ∧
    (serveRegisterWorker standardDeployment s.world foreignWorker workerPeer
      1).1.store.workers ≠ s.world.store.workers ∧
    submitIsRegistered (serveRegisterWorker standardDeployment s.world foreignWorker workerPeer
      1).1.registry (zeroSubmission "a" 1 "" "") workerPeer = false ∧
    ¬ TrainerReady standardDeployment s.world foreignWorker workerPeer 1 := by
  have htest : (exec (Process.step standardDeployment) (registering "a" site)
      (initial standardDeployment firstStart)).any (fun s =>
        let served := serveRegisterWorker standardDeployment s.world foreignWorker workerPeer 1
        decide (served.2.toOption = some {
          accepted := true
          workerId := "w"
          trainerClientId := "a"
          serverTime := currentTimestamp 1
          message := "Worker registered and trainer client is ready" }) &&
        (decide (served.1.store.workers ≠ s.world.store.workers) &&
          !submitIsRegistered served.1.registry (zeroSubmission "a" 1 "" "") workerPeer)) =
        true := by
    decide +kernel
  rw [Option.any_eq_true] at htest
  obtain ⟨s, hs, hfacts⟩ := htest
  simp only [Bool.and_eq_true, decide_eq_true_eq, Bool.not_eq_true'] at hfacts
  obtain ⟨hanswer, hworkers, hsubmit⟩ := hfacts
  have hserved : (serveRegisterWorker standardDeployment s.world foreignWorker workerPeer 1).2 =
      .ok {
        accepted := true
        workerId := "w"
        trainerClientId := "a"
        serverTime := currentTimestamp 1
        message := "Worker registered and trainer client is ready" } := by
    cases hanswered : (serveRegisterWorker standardDeployment s.world foreignWorker workerPeer
        1).2 with
    | error refusal =>
      rw [hanswered] at hanswer
      cases hanswer
    | ok response =>
      rw [hanswered] at hanswer
      exact congrArg _ (Option.some.inj hanswer)
  refine ⟨s, exec_reaches _ hs, hserved, hworkers, hsubmit, ?_⟩
  intro hready
  have hsubmits := hready.submits _ hserved rfl (zeroSubmission "a" 1 "" "") rfl rfl rfl
  rw [hsubmit] at hsubmits
  cases hsubmits

end PqFl.TrainerBindings
