import PqFl.ClientNames
import PqFl.SubmissionTracking

/-!
# The steps that bind clients

A client is bound in the registry first and in the store later. `RegisterClient`
does so under the mutex of the federated service, `RegisterWorker` outside of it.
-/

set_option autoImplicit false

namespace PqFl.CertificateBinding
open PqFl.Identifiers PqFl.StoreRecords PqFl.StateStore PqFl.ClientRegistry PqFl.ListUpdate
open PqFl.Services PqFl.Process PqFl.StoreRuns PqFl.ServerStore PqFl.SubmissionTracking
open PqFl.JobSteps PqFl.Aggregation

variable {F : Type} {d : Deployment F} {s s' : Server F} {a : Action F}

/-- The client whose registration is in the registry, but perhaps not yet in the store. -/
def clientInRegistration (s : Server F) : Option ClientInfo :=
  match s.federated with
  | some (.registerClient _ (.audit _)) => none
  | some (.registerClient info _) => some info
  | _ => none

/-- A step which neither binds nor checks a binding. -/
structure Kept (s s' : Server F) : Prop where
  bound : ∀ key, boundIdentity s'.world.registry key = boundIdentity s.world.registry key
  recorded : clientBindings s'.world.store = clientBindings s.world.store
  workers : ∀ q peer p, .registerWorker q peer p ∈ s'.calls ↔ .registerWorker q peer p ∈ s.calls
  client : clientInRegistration s' = clientInRegistration s
  passed : ∀ t m c i, .passed t m c i ∈ s'.events → .passed t m c i ∈ s.events

theorem Kept.refl (s : Server F) : Kept s s :=
  ⟨fun _ => rfl, rfl, fun _ _ _ => Iff.rfl, rfl, fun _ _ _ _ h => h⟩

theorem mem_replaceCall {calls : List (Call F)} {i : ℕ} {next : Option (Call F)} {call : Call F}
    (h : call ∈ replaceCall calls i next) : call ∈ calls ∨ next = some call := by
  cases next with
  | none => exact .inl (List.mem_of_mem_eraseIdx h)
  | some call' =>
    rcases List.mem_or_eq_of_mem_set h with hold | rfl
    · exact .inl hold
    · exact .inr rfl

theorem mem_replaceCall_of_mem {calls : List (Call F)} {i : ℕ} {old : Call F}
    (hi : calls[i]? = some old) (next : Option (Call F)) {call : Call F} (h : call ∈ calls) :
    call = old ∨ call ∈ replaceCall calls i next := by
  obtain ⟨j, hj⟩ := List.mem_iff_getElem?.mp h
  by_cases hij : i = j
  · subst hij
    exact .inl (Option.some.inj (hj.symm.trans hi))
  · right
    cases next with
    | none => exact List.mem_eraseIdx_iff_getElem?.mpr ⟨j, Ne.symm hij, hj⟩
    | some call' =>
      have hkept : (calls.set i call')[j]? = some call := by rw [List.getElem?_set_ne hij, hj]
      exact List.mem_iff_getElem?.mpr ⟨j, hkept⟩

theorem workers_replaceCall {calls : List (Call F)} {i : ℕ} {old : Call F} (hi : calls[i]? = some old)
    {next : Option (Call F)} (hold : ∀ q peer p, old ≠ .registerWorker q peer p)
    (hnext : ∀ q peer p, next ≠ some (.registerWorker q peer p)) (q : WorkerRegistration)
    (peer : Peer) (p : RegisterWorkerPoint) :
    .registerWorker q peer p ∈ replaceCall calls i next ↔ .registerWorker q peer p ∈ calls := by
  constructor
  · intro h
    exact (mem_replaceCall h).resolve_right (hnext q peer p)
  · intro h
    exact (mem_replaceCall_of_mem hi next h).resolve_left (fun he => hold q peer p he.symm)

theorem workers_append {calls : List (Call F)} {call : Call F}
    (h : ∀ q peer p, call ≠ .registerWorker q peer p) (q : WorkerRegistration) (peer : Peer)
    (p : RegisterWorkerPoint) :
    .registerWorker q peer p ∈ calls ++ [call] ↔ .registerWorker q peer p ∈ calls := by
  rw [List.mem_append, List.mem_singleton]
  exact or_iff_left (fun he => h q peer p he.symm)

theorem submitOperation_record {q : SubmitWeightsRequest} {p : SubmitPoint F}
    {record : PersistedClientRecord} :
    submitOperation d q p ≠ some (.recordClientRegistration record) := by
  cases p <;> simp [submitOperation]

theorem Kept.performed (op : Operation) {now : ℕ}
    (hregistry : s'.world.registry = s.world.registry)
    (hstore : s'.world.store = (perform s.world.store now op).store)
    (hop : ∀ record, op ≠ .recordClientRegistration record)
    (hworkers : ∀ q peer p, .registerWorker q peer p ∈ s'.calls ↔
      .registerWorker q peer p ∈ s.calls)
    (hfederated : s'.federated = s.federated) (hevents : s'.events = s.events) : Kept s s' := by
  refine ⟨?_, ?_, hworkers, ?_, ?_⟩
  · intro key
    rw [hregistry]
  · rw [hstore]
    exact perform_clientBindings hop
  · unfold clientInRegistration
    rw [hfederated]
  · intro t m c i h
    rw [← hevents]
    exact h

variable [FloatArith F]

/-- What a step does to the bindings. -/
inductive BindingStep (d : Deployment F) (s : Server F) : Action F → Server F → Prop
  | kept {a : Action F} {s' : Server F} (h : Kept s s') : BindingStep d s a s'
  | registerClient {q : RegisterClientRequest} {peer : Peer} {now : ℕ} (hidle : s.federated = none)
      (h : rejectsRegisterClient q peer = false) :
      BindingStep d s (.registerClient q peer now) (startRegisterClient s q peer now)
  | submit {q : SubmitWeightsRequest} {peer : Peer} (hidle : s.federated = none) :
      BindingStep d s (.submitWeights q peer) (startSubmit s q peer)
  | recordClient {info : ClientInfo} {response : RegisterClientResponse} {o : Oracle F}
      (hcall : s.federated = some (.registerClient info (.record response))) :
      BindingStep d s (.proceed o) { s with
        world := s.world.after (recordClientRegistration s.world.store (clientRecord info) o.now)
        federated := some (.registerClient info (.audit response)) }
  | addWorker {q : WorkerRegistration} {peer : Peer} {now : ℕ} {s' : Server F}
      (h : Kept s { s' with calls := s.calls })
      (hcalls : s'.calls = s.calls ++ [.registerWorker q peer .isRegistered]) :
      BindingStep d s (.registerWorker q peer now) s'
  | worker {i now : ℕ} {q : WorkerRegistration} {peer : Peer} {p : RegisterWorkerPoint}
      (hcall : s.calls[i]? = some (.registerWorker q peer p)) :
      BindingStep d s (.call i now) { s with
        world := (stepRegisterWorker s.world q peer now p).1
        calls := replaceCall s.calls i
          ((stepRegisterWorker s.world q peer now p).2.map (.registerWorker q peer)) }
  | restart {start : Start} {s' : Server F} (h : restart d.primitives s start = some s') :
      BindingStep d s (.restart start) s'

theorem step_clientBindings (h : Process.step d s a = some s') (hrestart : ∀ start, a ≠ .restart start)
    (hop : ∀ record now, storeOperation d s a ≠ some (.recordClientRegistration record, now)) :
    clientBindings s'.world.store = clientBindings s.world.store := by
  rw [step_store h hrestart]
  cases hperformed : storeOperation d s a with
  | none => rfl
  | some performed =>
    obtain ⟨op, now⟩ := performed
    apply perform_clientBindings
    rintro record rfl
    exact hop record now hperformed

theorem stepSubmitWeights_bindings (w : World F) (q : SubmitWeightsRequest) (peer : Peer)
    (o : Oracle F) (p : SubmitPoint F) (key : String) :
    boundIdentity (stepSubmitWeights d w q peer o p).1.registry key = boundIdentity w.registry key := by
  cases p with
  | activeJob current =>
    simp only [stepSubmitWeights]
    split <;> rfl
  | decrypt job =>
    simp only [stepSubmitWeights]
    split
    · rfl
    · exact updateLastActiveRound_bindings _ _ _ _ _ _
  | _ => rfl

theorem observe_passed {q : SubmitWeightsRequest} {peer : Peer} {n : ℕ} {o : Oracle F}
    {p : SubmitPoint F} {t m c i : String} : .passed t m c i ∉ observe d s q peer n o p := by
  intro h
  cases observe_observed h

theorem proceedSubmit_kept {q : SubmitWeightsRequest} {peer : Peer} {n : ℕ} {o : Oracle F}
    {p : SubmitPoint F} (hcall : s.federated = some (.submitWeights q peer n p)) :
    Kept s (proceedSubmit d s q peer n o p) where
  bound key := stepSubmitWeights_bindings _ _ _ _ _ key
  recorded := by
    have hstep : Process.step d s (.proceed o) = some (proceedSubmit d s q peer n o p) := by
      simp only [Process.step, Process.proceed, hcall]
    refine step_clientBindings hstep (fun _ h => by cases h) ?_
    intro record now h
    simp only [storeOperation, hcall, Option.bind_some, federatedOperation] at h
    obtain ⟨op, hop, hpair⟩ := Option.map_eq_some_iff.mp h
    cases hpair
    exact submitOperation_record hop
  workers _ _ _ := Iff.rfl
  client := by
    simp only [clientInRegistration, proceedSubmit, hcall]
    cases (stepSubmitWeights d s.world q peer o p).2 with
    | inl p' => rfl
    | inr response => rfl
  passed t m c i h := by
    rw [Server.events, proceedSubmit, ← List.append_assoc] at h
    exact (List.mem_append.mp h).resolve_right observe_passed

theorem proceed_bindingStep {o : Oracle F} (h : Process.proceed d s o = some s') :
    BindingStep d s (.proceed o) s' := by
  have hstep : Process.step d s (.proceed o) = some s' := h
  unfold Process.proceed at h
  split at h
  · cases h
  · rename_i info p hcall
    cases p with
    | latestModel accepted =>
      cases h
      exact .kept ⟨fun _ => rfl, rfl, fun _ _ _ => Iff.rfl, by
        simp [clientInRegistration, hcall, stepRegisterClient], fun _ _ _ _ h => h⟩
    | modelVersion accepted round =>
      cases h
      exact .kept ⟨fun _ => rfl, rfl, fun _ _ _ => Iff.rfl, by
        simp [clientInRegistration, hcall, stepRegisterClient], fun _ _ _ _ h => h⟩
    | record response =>
      cases h
      exact .recordClient hcall
    | audit response =>
      cases h
      refine .kept ⟨fun _ => rfl, ?_, fun _ _ _ => Iff.rfl, by
        simp [clientInRegistration, hcall, stepRegisterClient], fun _ _ _ _ h => h⟩
      refine step_clientBindings hstep (fun _ h => by cases h) ?_
      intro record now hop
      simp only [storeOperation, hcall, Option.bind_some] at hop
      cases hop
  · rename_i q p hcall
    cases h
    refine .kept ⟨?_, ?_, fun _ _ _ => Iff.rfl, ?_, fun _ _ _ _ h => h⟩
    · intro key
      cases p <;> rfl
    · refine step_clientBindings hstep (fun _ h => by cases h) ?_
      intro record now hop
      simp only [storeOperation, hcall, Option.bind_some] at hop
      cases p <;> cases hop
    · cases p <;> simp [clientInRegistration, hcall, stepTrainingConfig]
  · rename_i q peer n p hcall
    cases h
    exact .kept (proceedSubmit_kept hcall)

theorem stepCall_other {call : Call F} {now : ℕ} {next : World F × Option (Call F) × List (Event F)}
    (h : stepCall d s now call = some next)
    (hworker : ∀ q peer p, call ≠ .registerWorker q peer p) :
    next.1.registry = s.world.registry ∧
      (∀ q peer p, next.2.1 ≠ some (.registerWorker q peer p)) ∧
      ∀ t m c i, .passed t m c i ∉ next.2.2 := by
  cases call with
  | registerWorker q peer p => exact absurd rfl (hworker q peer p)
  | leaseTrainingTask q worker p =>
    cases h
    refine ⟨?_, ?_, by simp⟩
    · cases p <;> rfl
    · intro q' peer p' he
      obtain ⟨point, -, hcall⟩ := Option.map_eq_some_iff.mp he
      cases hcall
  | rollbackModel target p =>
    cases p with
    | readCheckpoint =>
      cases h
      refine ⟨rfl, ?_, by simp⟩
      intro q peer p he
      dsimp only at he
      split at he
      · cases he
      · cases he
    | restore weights =>
      simp only [stepCall] at h
      split at h
      · cases h
      · cases h
        exact ⟨rfl, by simp, by simp⟩
  | rotateAtRestKey keyVersion =>
    cases h
    exact ⟨rfl, by simp, by simp⟩

theorem stepCallAt_bindingStep {i now : ℕ} (h : stepCallAt d s i now = some s') :
    BindingStep d s (.call i now) s' := by
  have hstep : Process.step d s (.call i now) = some s' := h
  unfold stepCallAt at h
  obtain ⟨call, hcall, hrest⟩ := Option.bind_eq_some_iff.mp h
  obtain ⟨next, hnext, rfl⟩ := Option.map_eq_some_iff.mp hrest
  by_cases hworker : ∃ q peer p, call = .registerWorker q peer p
  · obtain ⟨q, peer, p, rfl⟩ := hworker
    cases hnext
    dsimp only
    rw [List.append_nil]
    exact .worker hcall
  push Not at hworker
  obtain ⟨hregistry, hleft, hpassed⟩ := stepCall_other hnext hworker
  have hrecorded : ∀ record now', storeOperation d s (.call i now) ≠
      some (.recordClientRegistration record, now') := by
    intro record now' hop
    simp only [storeOperation, hcall, Option.bind_some] at hop
    cases call with
    | registerWorker q peer p => exact hworker q peer p rfl
    | leaseTrainingTask q worker p => cases p <;> cases hop
    | rollbackModel target p => cases p <;> cases hop
    | rotateAtRestKey keyVersion => cases hop
  refine .kept ⟨?_, step_clientBindings hstep (fun _ h => by cases h) hrecorded,
    workers_replaceCall hcall hworker hleft, rfl, ?_⟩
  · intro key
    rw [hregistry]
  · intro t m c j hmem
    rw [Server.events, ← List.append_assoc] at hmem
    exact (List.mem_append.mp hmem).resolve_right (hpassed t m c j)

theorem step_bindingStep (h : Process.step d s a = some s') : BindingStep d s a s' := by
  cases step_stepped h with
  | refused hrequest => exact .kept (.refl s)
  | @registerClient q peer now hidle hpasses =>
    have hstart : BindingStep d s (.registerClient q peer now)
        (startRegisterClient s q peer now) := .registerClient hidle hpasses
    rw [startRegisterClient, if_neg (Bool.eq_false_iff.mp hpasses)] at hstart
    exact hstart
  | getTrainingConfig hidle hpasses =>
    refine .kept ⟨fun _ => rfl, rfl, fun _ _ _ => Iff.rfl, ?_, fun _ _ _ _ h => h⟩
    simp [clientInRegistration, hidle]
  | submitWeights hidle => exact .submit hidle
  | registering hcall => exact proceed_bindingStep h
  | configuring hcall => exact proceed_bindingStep h
  | submitting hcall => exact proceed_bindingStep h
  | registerWorker hworker hpasses =>
    refine .addWorker (.performed (.upsertWorker _) rfl rfl ?_ (fun _ _ _ => Iff.rfl) rfl rfl) rfl
    intro _ h
    cases h
  | leaseTrainingTask hworker hpasses hknown =>
    exact .kept ⟨fun _ => rfl, rfl, workers_append (by simp), rfl, fun _ _ _ _ h => h⟩
  | reportTaskStatus hworker hpasses =>
    refine .kept (.performed (.updateWorkerTaskStatus _ _ _ _ _) rfl rfl ?_
      (fun _ _ _ => Iff.rfl) rfl rfl)
    intro _ h
    cases h
  | heartbeat hworker hpasses =>
    refine .kept (.performed (.recordWorkerHeartbeat _ _ _) rfl rfl ?_
      (fun _ _ _ => Iff.rfl) rfl rfl)
    intro _ h
    cases h
  | upsertDataset hadmin hpasses =>
    refine .kept (.performed (.upsertDataset _) rfl rfl ?_ (fun _ _ _ => Iff.rfl) rfl rfl)
    intro _ h
    cases h
  | createTrainingJob hadmin hpasses hdataset =>
    refine .kept (.performed (.createTrainingJob _) rfl rfl ?_ (fun _ _ _ => Iff.rfl) rfl rfl)
    intro _ h
    cases h
  | rollbackMissed hadmin hpasses hmissed =>
    refine .kept (.performed (.rollbackModel _ _ _) rfl rfl ?_ (fun _ _ _ => Iff.rfl) rfl rfl)
    intro _ h
    cases h
  | rollbackModel hadmin hpasses htarget =>
    refine .kept (.performed (.rollbackModel _ _ _) rfl rfl ?_ (workers_append (by simp)) rfl rfl)
    intro _ h
    cases h
  | rotateAtRestKey hadmin hrotated =>
    exact .kept ⟨fun _ => rfl, rfl, workers_append (by simp), rfl, fun _ _ _ _ h => h⟩
  | call hcall hnext => exact stepCallAt_bindingStep h
  | restart hs => exact .restart h

end PqFl.CertificateBinding
