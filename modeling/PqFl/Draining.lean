import Mathlib.Algebra.BigOperators.Group.List.Basic
import PqFl.Budgets
import PqFl.Configuration
import PqFl.PendingSubmissions
import PqFl.ServerSteps

/-!
# The handlers drain

A handler of the server waits for another one in two places: the federated
service takes a request only when `proceed_mutex_` is free, and the last part of
a rollback waits for the buffer while a round is being recorded under its mutex.
Neither wait is for ever. Every handler has a bounded number of calls left, no
step of one handler makes another one longer, and as long as a request is in
progress some handler can go on, whatever the clock and the library report.
-/

set_option autoImplicit false

namespace PqFl.Draining
open PqFl.Identifiers PqFl.StoreRecords PqFl.StateStore PqFl.ClientRegistry PqFl.Crypto
open PqFl.Aggregation PqFl.Buffer PqFl.Services PqFl.Process PqFl.PendingSubmissions
open PqFl.Configuration PqFl.Budgets PqFl.Runs PqFl.Floats

variable {F : Type} {d : Deployment F} {s s' : Server F} {a : Action F}

def registerClientWork : RegisterClientPoint → ℕ
  | .latestModel _ => 4
  | .modelVersion _ _ => 3
  | .record _ => 2
  | .audit _ => 1

def trainingConfigWork : TrainingConfigPoint → ℕ
  | .modelVersion => 4
  | .keyVersion _ => 3
  | .lease _ _ => 2
  | .respond _ => 1

def registerWorkerWork : RegisterWorkerPoint → ℕ
  | .isRegistered => 3
  | .register => 2
  | .bind => 2
  | .record _ => 1

def workerLeaseWork : WorkerLeasePoint → ℕ
  | .modelVersion => 5
  | .lease _ => 4
  | .leaseTask _ _ => 3
  | .modelRecord _ _ _ => 2
  | .respond _ => 1

def federatedWork : FederatedCall F → ℕ
  | .registerClient _ p => registerClientWork p
  | .trainingConfig _ p => trainingConfigWork p
  | .submitWeights _ _ _ p => 15 - stage p

def callWork : Call F → ℕ
  | .registerWorker _ _ p => registerWorkerWork p
  | .leaseTrainingTask _ _ p => workerLeaseWork p
  | .rollbackModel _ .readCheckpoint => 2
  | .rollbackModel _ (.restore _) => 1
  | .rotateAtRestKey _ => 1

/-- The calls that the handlers in progress have left. -/
def work (s : Server F) : ℕ :=
  (s.federated.map federatedWork).getD 0 + (s.calls.map callWork).sum

def isHandlerStep : Action F → Bool
  | .proceed _ | .call _ _ => true
  | _ => false

theorem stage_le (p : SubmitPoint F) : stage p ≤ 14 := by
  cases p <;> simp [stage]

theorem work_quiet (h : Quiet s) : work s = 0 := by
  simp [work, h.1, h.2]

theorem registerClient_spends (w : World F) (info : ClientInfo) (now : ℕ)
    (p : RegisterClientPoint) :
    ((stepRegisterClient w info now p).2.map registerClientWork).getD 0 <
      registerClientWork p := by
  cases p <;> simp [stepRegisterClient, registerClientWork]

theorem trainingConfig_spends (cfg : Config F) (w : World F) (q : TrainingConfigRequest) (now : ℕ)
    (p : TrainingConfigPoint) :
    ((stepTrainingConfig cfg w q now p).2.map trainingConfigWork).getD 0 <
      trainingConfigWork p := by
  cases p <;> simp [stepTrainingConfig, trainingConfigWork]

theorem registerWorker_spends (w : World F) (q : WorkerRegistration) (peer : Peer) (now : ℕ)
    (p : RegisterWorkerPoint) :
    ((stepRegisterWorker w q peer now p).2.map registerWorkerWork).getD 0 <
      registerWorkerWork p := by
  cases p with
  | isRegistered =>
    simp only [stepRegisterWorker]
    split <;> simp [registerWorkerWork]
  | bind =>
    simp only [stepRegisterWorker]
    split <;> simp [registerWorkerWork]
  | _ => simp [stepRegisterWorker, registerWorkerWork]

theorem workerLease_spends (cfg : Config F) (w : World F) (q : WorkerTaskLeaseRequest)
    (worker : PersistedWorkerRecord) (now : ℕ) (p : WorkerLeasePoint) :
    ((stepWorkerLease cfg w q worker now p).2.map workerLeaseWork).getD 0 < workerLeaseWork p := by
  cases p with
  | lease modelVersion =>
    simp only [stepWorkerLease, Option.map_map]
    cases (leaseTrainingAssignment w.store (leaseTenant q worker) (leaseModel q worker)
      worker.trainerClientId modelVersion cfg.requiredClients cfg.defaultAssignmentTtlSeconds
      now).value with
    | none => simp [workerLeaseWork]
    | some lease => simp [workerLeaseWork]
  | _ => simp [stepWorkerLease, workerLeaseWork]

theorem replaceCall_work {calls : List (Call F)} {i : ℕ} {call : Call F}
    (h : calls[i]? = some call) (next : Option (Call F)) :
    ((replaceCall calls i next).map callWork).sum + callWork call =
      (calls.map callWork).sum + (next.map callWork).getD 0 := by
  induction calls generalizing i with
  | nil => cases h
  | cons c calls ih =>
    cases i with
    | zero =>
      obtain rfl : c = call := by simpa using h
      cases next with
      | none =>
        show (calls.map callWork).sum + callWork c = ((c :: calls).map callWork).sum + 0
        rw [List.map_cons, List.sum_cons]
        omega
      | some c' =>
        show ((c' :: calls).map callWork).sum + callWork c =
          ((c :: calls).map callWork).sum + callWork c'
        rw [List.map_cons, List.sum_cons, List.map_cons, List.sum_cons]
        omega
    | succ i =>
      have hrest := ih (i := i) (by simpa using h)
      have hcons : replaceCall (c :: calls) (i + 1) next = c :: replaceCall calls i next := by
        cases next <;> rfl
      rw [hcons, List.map_cons, List.sum_cons, List.map_cons, List.sum_cons]
      omega

theorem appended_work (n : ℕ) (calls : List (Call F)) (call : Call F) :
    n + ((calls ++ [call]).map callWork).sum = n + (calls.map callWork).sum + callWork call := by
  rw [List.map_append, List.sum_append, List.map_singleton, List.sum_singleton, Nat.add_assoc]

/-- The server takes a step of a handler, under this clock and these draws. -/
def HandlerStep (o : Oracle F) (now : ℕ) (a : Action F) : Prop :=
  a = .proceed o ∨ ∃ i, a = .call i now

theorem HandlerStep.does {o : Oracle F} {now : ℕ} (h : HandlerStep o now a) :
    isHandlerStep a = true := by
  rcases h with rfl | ⟨i, rfl⟩
  · rfl
  · rfl

variable [FloatArith F]

theorem submit_spends (d : Deployment F) (w : World F) (q : SubmitWeightsRequest) (peer : Peer)
    (o : Oracle F) {p p' : SubmitPoint F} (h : (stepSubmitWeights d w q peer o p).2 = .inl p') :
    15 - stage p' < 15 - stage p := by
  have hlast : stage p ≠ 14 := by
    intro hp
    cases p with
    | respond response countClients => cases h
    | _ => cases hp
  have hp := stage_le p
  rcases next_stage h with hnext | hnext | ⟨hnow, hnext⟩ | ⟨hnow, hnext⟩ <;> omega

theorem call_spends {now : ℕ} {call : Call F} {next : World F × Option (Call F) × List (Event F)}
    (h : stepCall d s now call = some next) :
    (next.2.1.map callWork).getD 0 < callWork call := by
  cases call with
  | registerWorker q peer p =>
    obtain rfl := Option.some.inj h
    simpa [Option.map_map, Function.comp_def, callWork] using
      registerWorker_spends s.world q peer now p
  | leaseTrainingTask q worker p =>
    obtain rfl := Option.some.inj h
    simpa [Option.map_map, Function.comp_def, callWork] using
      workerLease_spends d.config s.world q worker now p
  | rollbackModel target p =>
    cases p with
    | readCheckpoint =>
      obtain rfl := Option.some.inj h
      dsimp only
      split <;> simp [callWork]
    | restore weights =>
      simp only [stepCall] at h
      split at h
      · cases h
      · obtain rfl := Option.some.inj h
        exact Nat.one_pos
  | rotateAtRestKey keyVersion =>
    obtain rfl := Option.some.inj h
    exact Nat.one_pos

theorem step_spends (hs : step d s a = some s') (ha : isHandlerStep a = true) :
    work s' < work s := by
  cases step_stepped hs with
  | refused hrequest => cases a <;> simp_all [isRequest, isHandlerStep]
  | @registering o info p hcall =>
    have hless := registerClient_spends s.world info o.now p
    simpa [work, hcall, federatedWork, Option.map_map, Function.comp_def] using hless
  | @configuring o q p hcall =>
    have hless := trainingConfig_spends d.config s.world q o.now p
    simpa [work, hcall, federatedWork, Option.map_map, Function.comp_def] using hless
  | @submitting o q peer serial p hcall =>
    have hleft : ((proceedSubmit d s q peer serial o p).federated.map federatedWork).getD 0 <
        15 - stage p := by
      have hp := stage_le p
      simp only [proceedSubmit]
      split
      · rename_i p' hnext
        exact submit_spends d s.world q peer o hnext
      · show 0 < 15 - stage p
        omega
    have hcalls : (proceedSubmit d s q peer serial o p).calls = s.calls := rfl
    simp only [work, hcall, hcalls, Option.map_some, Option.getD_some, federatedWork]
    omega
  | @call i now call next hcall hnext =>
    have hless := call_spends hnext
    have hcalls := replaceCall_work hcall next.2.1
    simp only [work]
    omega
  | _ => cases ha

/-- A request asks for at most fifteen calls: those of a submission which
completes a round under a lease. -/
theorem step_asks (hs : step d s a = some s') (ha : isRequest a = true) :
    work s' ≤ work s + 15 := by
  cases step_stepped hs with
  | refused hrequest => exact Nat.le_add_right _ _
  | registerClient hidle hpasses =>
    simp only [work, hidle, federatedWork, registerClientWork, Option.map_some, Option.map_none,
      Option.getD_some, Option.getD_none]
    omega
  | getTrainingConfig hidle hpasses =>
    simp only [work, hidle, federatedWork, trainingConfigWork, Option.map_some, Option.map_none,
      Option.getD_some, Option.getD_none]
    omega
  | @submitWeights q peer hidle =>
    simp only [work, startSubmit, hidle, Option.map_some, Option.map_none, Option.getD_some,
      Option.getD_none, federatedWork]
    omega
  | registerWorker hworker hpasses =>
    rw [work, appended_work]
    exact Nat.add_le_add_left (by simp [callWork, registerWorkerWork]) _
  | leaseTrainingTask hworker hpasses hknown =>
    rw [work, appended_work]
    exact Nat.add_le_add_left (by simp [callWork, workerLeaseWork]) _
  | rollbackModel hadmin hpasses htarget =>
    rw [work, appended_work]
    exact Nat.add_le_add_left (by simp [callWork]) _
  | rotateAtRestKey hadmin hrotated =>
    rw [work, appended_work]
    exact Nat.add_le_add_left (by simp [callWork]) _
  | registering hcall => cases ha
  | configuring hcall => cases ha
  | submitting hcall => cases ha
  | call hcall hnext => cases ha
  | restart hrestart => cases ha
  | _ => exact Nat.le_add_right _ _

theorem step_idle (hs : step d s a = some s') (ha : isRequest a = false) : work s' ≤ work s := by
  by_cases hdoes : isHandlerStep a = true
  · exact (step_spends hs hdoes).le
  · cases a with
    | restart start =>
      obtain ⟨w, hw, rfl⟩ := Option.map_eq_some_iff.mp hs
      exact Nat.zero_le _
    | proceed o => exact absurd rfl hdoes
    | call i now => exact absurd rfl hdoes
    | _ => cases ha

theorem server_budgeted (d : Deployment F) : Budgeted (step d) work isRequest isHandlerStep 15 where
  apart := by
    intro a ha
    cases a <;> first | rfl | cases ha
  done := fun s a s' hs ha => step_spends hs ha
  asked := fun s a s' hs ha => step_asks hs ha
  idle := fun s a s' hs ha => step_idle hs ha

theorem proceed_goes (hbusy : s.federated ≠ none) (o : Oracle F) :
    ∃ s', step d s (.proceed o) = some s' := by
  cases hf : s.federated with
  | none => exact absurd hf hbusy
  | some c =>
    cases c with
    | registerClient info p => exact ⟨_, by simp only [step, proceed, hf]; rfl⟩
    | trainingConfig q p => exact ⟨_, by simp only [step, proceed, hf]; rfl⟩
    | submitWeights q peer serial p => exact ⟨_, by simp only [step, proceed, hf]; rfl⟩

theorem call_goes (hidle : s.federated = none) {i : ℕ} (hi : i < s.calls.length) (now : ℕ) :
    ∃ s', step d s (.call i now) = some s' := by
  have hfree : bufferLocked s = false := by rw [bufferLocked, hidle]
  have hcall : s.calls[i]? = some s.calls[i] := List.getElem?_eq_getElem hi
  have hnext : ∃ next, stepCall d s now s.calls[i] = some next := by
    cases s.calls[i] with
    | registerWorker q peer p => exact ⟨_, rfl⟩
    | leaseTrainingTask q worker p => exact ⟨_, rfl⟩
    | rollbackModel target p =>
      cases p with
      | readCheckpoint => exact ⟨_, rfl⟩
      | restore weights =>
        simp only [stepCall, hfree, Bool.false_eq_true, if_false]
        exact ⟨_, rfl⟩
    | rotateAtRestKey keyVersion => exact ⟨_, rfl⟩
  obtain ⟨next, hnext⟩ := hnext
  simp only [step, stepCallAt, hcall, Option.bind_some, hnext, Option.map_some]
  exact ⟨_, rfl⟩

theorem goes_on (hbusy : ¬ Quiet s) (o : Oracle F) (now : ℕ) :
    ∃ a s', HandlerStep o now a ∧ step d s a = some s' := by
  by_cases hf : s.federated = none
  · have hcalls : 0 < s.calls.length := by
      apply List.length_pos_of_ne_nil
      intro hnil
      exact hbusy ⟨hf, hnil⟩
    obtain ⟨s', hs⟩ := call_goes (d := d) hf hcalls now
    exact ⟨.call 0 now, s', .inr ⟨0, rfl⟩, hs⟩
  · obtain ⟨s', hs⟩ := proceed_goes (d := d) hf o
    exact ⟨.proceed o, s', .inl rfl, hs⟩

/-- From a server without a request in progress, a run takes at most fifteen
steps of handlers for each of its requests. The server is stuck only when it is
quiet again; and wherever the run has come, the handlers alone bring it there
within what is left of the fifteen steps. -/
theorem handlers_drain {as : List (Action F)} (hquiet : Quiet s)
    (hrun : exec (step d) as s = some s') :
    as.countP isHandlerStep ≤ 15 * as.countP isRequest ∧
    ∀ (o : Oracle F) (now : ℕ),
      ((∀ a, HandlerStep o now a → step d s' a = none) → Quiet s') ∧
      ∃ more t, (∀ a ∈ more, HandlerStep o now a) ∧ exec (step d) more s' = some t ∧ Quiet t ∧
        as.countP isHandlerStep + more.length ≤ 15 * as.countP isRequest := by
  have hpaid := (server_budgeted d).exec_le as hrun
  rw [work_quiet hquiet, Nat.zero_add] at hpaid
  have hbound : as.countP isHandlerStep ≤ 15 * as.countP isRequest := by omega
  refine ⟨hbound, fun o now => ⟨fun hstuck => ?_, ?_⟩⟩
  · by_contra hbusy
    obtain ⟨a, t, ha, ht⟩ := goes_on (d := d) hbusy o now
    rw [hstuck a ha] at ht
    cases ht
  · obtain ⟨more, t, hmore, hexec, hdone, hlength⟩ := (server_budgeted d).drains
      (fun _ ha => HandlerStep.does ha) (fun _ hbusy => goes_on hbusy o now) s'
    exact ⟨more, t, hmore, hexec, hdone, by omega⟩

/-- A submission that is accepted but not answered, and a rotation of the key beside it. -/
def busyRun : List (Action Binary32) := acceptedRun ++ [.rotateAtRestKey zeroKey admin]

def busyServer : Server Binary32 :=
  (exec (step standardDeployment) busyRun (initial standardDeployment firstStart)).get
    (by decide +kernel)

theorem handlers_drain_busyServer : ¬ Quiet busyServer ∧
    ∃ more t, (∀ a ∈ more, HandlerStep (calm 4) 4 a) ∧
      exec (step standardDeployment) more busyServer = some t ∧ Quiet t ∧ more.length ≤ 69 := by
  have hbusy : busyServer.calls.length = 1 := by decide +kernel
  obtain ⟨-, hdrain⟩ := handlers_drain (d := standardDeployment)
    (s := initial standardDeployment firstStart) ⟨rfl, rfl⟩ (Option.some_get _).symm
  obtain ⟨-, more, t, hmore, hexec, hdone, hlength⟩ := hdrain (calm 4) 4
  refine ⟨fun hquiet => ?_, more, t, hmore, hexec, hdone, ?_⟩
  · rw [hquiet.2] at hbusy
    cases hbusy
  · have hcounts : busyRun.countP isHandlerStep = 21 ∧ busyRun.countP isRequest = 6 := by
      decide +kernel
    omega

end PqFl.Draining
