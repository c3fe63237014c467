import PqFl.BindingSteps
import PqFl.Configuration

/-!
# Certificate binding

Between restarts the registry decides who may submit for a client, after a
restart the store does. The two agree as long as the first identity which the
store records of a client is the one that the registry holds, and no restart
separates the two writes of a worker's registration.
-/

set_option autoImplicit false

namespace PqFl.CertificateBinding
open PqFl.Identifiers PqFl.StoreRecords PqFl.StateStore PqFl.ClientRegistry PqFl.ListUpdate
open PqFl.Services PqFl.Process PqFl.ServerStore PqFl.SubmissionTracking
open PqFl.StoreRuns (InNormalScope inNormalScope_normalize)
open PqFl.JobSteps PqFl.Aggregation PqFl.Runs PqFl.Configuration PqFl.Floats

variable {F : Type} {d : Deployment F} {s s' : Server F} {a : Action F}

def noColon (value : String) : Bool := !value.toList.contains ':'

/-- The store has an identity of the client, or the registry holds this one. -/
def recordsBound (s : Server F) (info : ClientInfo) : Bool :=
  storedIdentity s.world.store (infoName info) != "" ||
    boundIdentity s.world.registry (infoName info).key == some info.peerIdentity

/-- A request of the client has passed the check of its identity. -/
def hasPassed (s : Server F) (n : ClientName) : Bool :=
  s.events.any (fun e => match e with
    | .passed t m c _ => n == ⟨t, m, c⟩
    | _ => false)

theorem plain_of_noColon {t m c : String} (hm : noColon m = true) (hc : ':' ∉ c.toList) :
    (⟨normalizeTenant t, normalizeModel m, c⟩ : ClientName).Plain where
  scope := inNormalScope_normalize t m
  model := colon_notMem_normalizeModel (by simpa [noColon] using hm)
  client := hc

/-- A worker's registration is about to write the client to the store. -/
def WorkerRecords (s : Server F) (n : ClientName) : Prop :=
  ∃ q peer registeredAt, .registerWorker q peer (.record registeredAt) ∈ s.calls ∧ workerName q = n

/-- Requests of the client have passed with this identity, and others cannot. -/
structure Passing (s : Server F) (n : ClientName) (i : String) : Prop where
  plain : n.Plain
  named : i ≠ ""
  bound : boundIdentity s.world.registry n.key = some i
  lasting : recordIdentity s.world.store n = some i ∨ WorkerRecords s n

/-- The registry has the identities of the store, and what the store lacks is
about to be written. -/
structure Bound (s : Server F) : Prop where
  reached : StoreReached s
  records : ∀ c ∈ s.world.store.clients, (recordName c).Plain
  workers : ∀ q peer p, .registerWorker q peer p ∈ s.calls → (workerName q).Plain
  client : ∀ info, clientInRegistration s = some info → (infoName info).Plain
  registered : ∀ n i, n.Plain → recordIdentity s.world.store n = some i → i ≠ "" →
    boundIdentity s.world.registry n.key = some i
  owed : ∀ n i, n.Plain → boundIdentity s.world.registry n.key = some i → i ≠ "" →
    recordIdentity s.world.store n = some i ∨ WorkerRecords s n ∨
      (clientInRegistration s).map infoName = some n
  passed : ∀ t m c i, .passed t m c i ∈ s.events → Passing s ⟨t, m, c⟩ i

theorem initial_bound (d : Deployment F) (start : Start) : Bound (initial d start) where
  reached := initial_storeReached d start
  records := by simp [initial, emptyStore]
  workers := by simp [initial]
  client := by simp [initial, clientInRegistration]
  registered n i _ h := by simp [initial, emptyStore, recordIdentity] at h
  owed n i _ h := by
    have hnone : boundIdentity (initial d start).world.registry n.key = none := rfl
    rw [hnone] at h
    cases h
  passed t m c i h := by simp [initial, Server.events] at h

theorem Kept.workerRecords (h : Kept s s') (n : ClientName) :
    WorkerRecords s' n ↔ WorkerRecords s n := by
  unfold WorkerRecords
  simp only [h.workers]

theorem Passing.kept {n : ClientName} {i : String} (hp : Passing s n i) (h : Kept s s') :
    Passing s' n i where
  plain := hp.plain
  named := hp.named
  bound := (h.bound _).trans hp.bound
  lasting := by
    rw [recordIdentity_congr h.recorded, h.workerRecords]
    exact hp.lasting

theorem kept_bound (h : Bound s) (hk : Kept s s') (hreached : StoreReached s') : Bound s' where
  reached := hreached
  records := forall_clientBindings (P := fun n _ => n.Plain) hk.recorded h.records
  workers q peer p hmem := h.workers q peer p ((hk.workers q peer p).mp hmem)
  client info hinfo := h.client info (by rw [← hk.client]; exact hinfo)
  registered n i hn hi hne := by
    rw [recordIdentity_congr hk.recorded] at hi
    rw [hk.bound]
    exact h.registered n i hn hi hne
  owed n i hn hi hne := by
    rw [hk.bound] at hi
    rw [recordIdentity_congr hk.recorded, hk.workerRecords, hk.client]
    exact h.owed n i hn hi hne
  passed t m c i he := (h.passed t m c i (hk.passed t m c i he)).kept hk

theorem recordsBound_iff {info : ClientInfo} : recordsBound s info = true ↔
    storedIdentity s.world.store (infoName info) ≠ "" ∨
      boundIdentity s.world.registry (infoName info).key = some info.peerIdentity := by
  simp [recordsBound]

theorem recordIdentity_of_stored {store : StateStore} {n : ClientName}
    (h : storedIdentity store n ≠ "") : recordIdentity store n = some (storedIdentity store n) := by
  unfold storedIdentity at h ⊢
  cases hi : recordIdentity store n with
  | none =>
    rw [hi] at h
    exact absurd rfl h
  | some i => rfl

theorem stored_of_recordIdentity {store : StateStore} {n : ClientName} {i : String}
    (h : recordIdentity store n = some i) : storedIdentity store n = i := by
  rw [storedIdentity, h]
  rfl

theorem record_agrees (h : Bound s) {info : ClientInfo} (hn : (infoName info).Plain)
    (hok : recordsBound s info = true) (now : ℕ) {x : StateStore}
    (hx : x = (recordClientRegistration s.world.store (clientRecord info) now).store) :
    (∀ n i, n.Plain → recordIdentity x n = some i → i ≠ "" →
      boundIdentity s.world.registry n.key = some i) ∧
    (∀ n i, recordIdentity s.world.store n = some i → i ≠ "" → recordIdentity x n = some i) ∧
    (∀ i, boundIdentity s.world.registry (infoName info).key = some i → i ≠ "" →
      recordIdentity x (infoName info) = some i) := by
  have hrecord : ∀ n, recordIdentity x n = if n = infoName info then
      some (if storedIdentity s.world.store n = "" then info.peerIdentity
        else storedIdentity s.world.store n) else recordIdentity s.world.store n := by
    intro n
    rw [hx]
    exact record_identity s.world.store (clientRecord info) now hn.scope n
  refine ⟨?_, ?_, ?_⟩
  · intro n i hplain hi hne
    rw [hrecord] at hi
    by_cases he : n = infoName info
    · subst he
      rw [if_pos rfl] at hi
      split at hi
      · rename_i hempty
        obtain rfl := Option.some.inj hi
        exact (recordsBound_iff.mp hok).resolve_left (fun hne => hne hempty)
      · rename_i hstored
        obtain rfl := Option.some.inj hi
        exact h.registered _ _ hn (recordIdentity_of_stored hstored) hne
    · rw [if_neg he] at hi
      exact h.registered n i hplain hi hne
  · intro n i hi hne
    rw [hrecord]
    by_cases he : n = infoName info
    · rw [if_pos he, stored_of_recordIdentity hi, if_neg hne]
    · rw [if_neg he, hi]
  · intro i hi hne
    rw [hrecord, if_pos rfl]
    split
    · rename_i hempty
      have hbound := (recordsBound_iff.mp hok).resolve_left (fun hne => hne hempty)
      rw [← hbound, hi]
    · rename_i hstored
      have hbound := h.registered _ _ hn (recordIdentity_of_stored hstored) hstored
      rw [← hbound, hi]

theorem registerClient_bound (h : Bound s) {q : RegisterClientRequest} {peer : Peer} {now : ℕ}
    (hidle : s.federated = none) (haccept : rejectsRegisterClient q peer = false)
    (hplain : (infoName (clientInfo q peer (Timestamps.currentTimestamp now))).Plain)
    (hreached : StoreReached (startRegisterClient s q peer now)) :
    Bound (startRegisterClient s q peer now) := by
  have hs' : startRegisterClient s q peer now =
      let info := clientInfo q peer (Timestamps.currentTimestamp now)
      { s with
        world := { s.world with registry := (register s.world.registry info).2 }
        federated := some (.registerClient info
          (.latestModel (register s.world.registry info).1)) } := by
    rw [startRegisterClient, haccept]
    rfl
  have hnone : clientInRegistration s = none := by rw [clientInRegistration, hidle]
  rw [hs'] at hreached ⊢
  set info := clientInfo q peer (Timestamps.currentTimestamp now) with hinfo
  have hkeep : ∀ key i, boundIdentity s.world.registry key = some i →
      boundIdentity (register s.world.registry info).2 key = some i := by
    intro key i hi
    rw [register_bindings, if_neg (fun hadds => by rw [hadds.2] at hi; cases hi), hi]
  refine ⟨hreached, h.records, h.workers, ?_, ?_, ?_, ?_⟩
  · intro info' hclient
    obtain rfl := Option.some.inj hclient
    exact hplain
  · intro n i hn hi hne
    exact hkeep _ _ (h.registered n i hn hi hne)
  · intro n i hn hi hne
    simp only [register_bindings] at hi
    split at hi
    · rename_i hadds
      right; right
      rw [hn.key_inj hplain hadds.1]
      rfl
    · rcases h.owed n i hn hi hne with hrecorded | hworker | hclient
      · exact .inl hrecorded
      · exact .inr (.inl hworker)
      · rw [hnone] at hclient
        cases hclient
  · intro t m c i he
    obtain ⟨hn, hne, hbound, hlasting⟩ := h.passed t m c i he
    exact ⟨hn, hne, hkeep _ _ hbound, hlasting⟩

theorem submit_bound (h : Bound s) {q : SubmitWeightsRequest} {peer : Peer}
    (hidle : s.federated = none)
    (hplain : (⟨normalizeTenant q.tenantId, normalizeModel q.modelId, q.clientId⟩ :
      ClientName).Plain) (hreached : StoreReached (startSubmit s q peer)) :
    Bound (startSubmit s q peer) := by
  have hnone : clientInRegistration s = none := by rw [clientInRegistration, hidle]
  have hold : ∀ n i, Passing s n i → Passing (startSubmit s q peer) n i :=
    fun n i hp => ⟨hp.plain, hp.named, hp.bound, hp.lasting⟩
  refine ⟨hreached, h.records, h.workers, ?_, h.registered, ?_, ?_⟩
  · intro info hclient
    simp [clientInRegistration, startSubmit] at hclient
  · intro n i hn hi hne
    rcases h.owed n i hn hi hne with hrecorded | hworker | hclient
    · exact .inl hrecorded
    · exact .inr (.inl hworker)
    · rw [hnone] at hclient
      cases hclient
  · intro t m c i he
    rw [Server.events, startSubmit, ← List.append_assoc] at he
    rcases List.mem_append.mp he with hpast | hnew
    · exact hold _ _ (h.passed t m c i hpast)
    · split at hnew
      · rename_i hpasses
        cases List.mem_singleton.mp hnew
        have hcheck := hpasses.2
        rw [submitIsRegistered, isRegisteredForPeer_eq, Bool.and_eq_true, bne_iff_ne,
          beq_iff_eq] at hcheck
        obtain ⟨hne, hbound⟩ := hcheck
        refine hold _ _ ⟨hplain, hne, hbound, ?_⟩
        rcases h.owed _ _ hplain hbound hne with hrecorded | hworker | hclient
        · exact .inl hrecorded
        · exact .inr hworker
        · rw [hnone] at hclient
          cases hclient
      · cases hnew

theorem recordClient_bound (h : Bound s) {info : ClientInfo} {response : RegisterClientResponse}
    {now : ℕ} (hcall : s.federated = some (.registerClient info (.record response)))
    (hok : recordsBound s info = true)
    (hs' : s' = { s with
      world := s.world.after (recordClientRegistration s.world.store (clientRecord info) now)
      federated := some (.registerClient info (.audit response)) })
    (hreached : StoreReached s') : Bound s' := by
  have hclient : clientInRegistration s = some info := by rw [clientInRegistration, hcall]
  have hplain := h.client info hclient
  subst hs'
  obtain ⟨hregistered, hkept, hwritten⟩ := record_agrees h hplain hok now rfl
  refine ⟨hreached, record_names h.records hplain.scope hplain, h.workers, ?_, hregistered, ?_, ?_⟩
  · intro info' hnone
    cases hnone
  · intro n i hn hi hne
    rcases h.owed n i hn hi hne with hrecorded | hworker | hname
    · exact .inl (hkept n i hrecorded hne)
    · exact .inr (.inl hworker)
    · rw [hclient] at hname
      obtain rfl := Option.some.inj hname
      exact .inl (hwritten i hi hne)
  · intro t m c i he
    obtain ⟨hn, hne, hbound, hlasting⟩ := h.passed t m c i he
    exact ⟨hn, hne, hbound, hlasting.imp (fun hrecorded => hkept _ _ hrecorded hne) id⟩

theorem bind_succeeds {g : Registry} {t m c p : String}
    (h : boundIdentity g (clientKey t m c) = some "") :
    (bindPeerIdentityIfMissing g t m c p).1 = true := by
  obtain ⟨info, hinfo, hempty⟩ := Option.map_eq_some_iff.mp h
  simp [bindPeerIdentityIfMissing, hinfo, hempty]

/-- A worker's registration before its last step: the registry keeps its
identities, and whoever it binds is about to be written. -/
theorem worker_bound (h : Bound s) {i : ℕ} {q : WorkerRegistration} {peer : Peer}
    {p : RegisterWorkerPoint} (hcall : s.calls[i]? = some (.registerWorker q peer p))
    (hp : ∀ registeredAt, p ≠ .record registeredAt) (g : Registry)
    (next : Option RegisterWorkerPoint)
    (hkeep : ∀ key j, boundIdentity s.world.registry key = some j → j ≠ "" →
      boundIdentity g key = some j)
    (hnew : ∀ key j, boundIdentity g key = some j → boundIdentity s.world.registry key = some j ∨
      (key = (workerName q).key ∧ ∃ registeredAt, next = some (.record registeredAt)))
    (hs' : s' = { s with
      world := { s.world with registry := g }
      calls := replaceCall s.calls i (next.map (.registerWorker q peer)) })
    (hreached : StoreReached s') : Bound s' := by
  have hplain := h.workers q peer p (List.mem_of_getElem? hcall)
  have hworker : ∀ n, WorkerRecords s n → WorkerRecords s' n := by
    rintro n ⟨q', peer', registeredAt, hmem, hname⟩
    refine ⟨q', peer', registeredAt, ?_, hname⟩
    rcases mem_replaceCall_of_mem hcall (next.map (.registerWorker q peer)) hmem with he | hin
    · cases he
      exact absurd rfl (hp registeredAt)
    · rw [hs']
      exact hin
  subst hs'
  refine ⟨hreached, h.records, ?_, h.client, ?_, ?_, ?_⟩
  · intro q' peer' p' hmem
    rcases mem_replaceCall hmem with hold | hmoved
    · exact h.workers q' peer' p' hold
    · obtain ⟨point, -, he⟩ := Option.map_eq_some_iff.mp hmoved
      cases he
      exact hplain
  · intro n j hn hj hne
    exact hkeep _ _ (h.registered n j hn hj hne) hne
  · intro n j hn hj hne
    rcases hnew n.key j hj with hold | ⟨hkey, registeredAt, hnext⟩
    · rcases h.owed n j hn hold hne with hrecorded | hrecords | hclient
      · exact .inl hrecorded
      · exact .inr (.inl (hworker n hrecords))
      · exact .inr (.inr hclient)
    · right; left
      refine ⟨q, peer, registeredAt, ?_, (hn.key_inj hplain hkey).symm⟩
      rw [hnext]
      have hlt : i < s.calls.length := (List.getElem?_eq_some_iff.mp hcall).1
      exact List.mem_iff_getElem?.mpr ⟨i, List.getElem?_set_self hlt⟩
  · intro t m c j he
    obtain ⟨hn, hne, hbound, hlasting⟩ := h.passed t m c j he
    exact ⟨hn, hne, hkeep _ _ hbound hne, hlasting.imp id (hworker _)⟩

theorem recordWorker_bound (h : Bound s) {i now : ℕ} {q : WorkerRegistration} {peer : Peer}
    {registeredAt : String} (hcall : s.calls[i]? = some (.registerWorker q peer (.record registeredAt)))
    (hok : recordsBound s (trainerInfo q peer registeredAt) = true)
    (hs' : s' = { s with
      world := s.world.after (recordClientRegistration s.world.store
        (clientRecord (trainerInfo q peer registeredAt)) now)
      calls := s.calls.eraseIdx i })
    (hreached : StoreReached s') : Bound s' := by
  have hplain := h.workers q peer _ (List.mem_of_getElem? hcall)
  have hname : infoName (trainerInfo q peer registeredAt) = workerName q := rfl
  subst hs'
  obtain ⟨hregistered, hkept, hwritten⟩ := record_agrees h (by rw [hname]; exact hplain) hok now rfl
  have hworker : ∀ n j, boundIdentity s.world.registry n.key = some j → j ≠ "" →
      WorkerRecords s n → recordIdentity (recordClientRegistration s.world.store
        (clientRecord (trainerInfo q peer registeredAt)) now).store n = some j ∨
      ∃ q' peer' registeredAt', .registerWorker q' peer' (.record registeredAt') ∈
        s.calls.eraseIdx i ∧ workerName q' = n := by
    rintro n j hj hne ⟨q', peer', registeredAt', hmem, rfl⟩
    rcases mem_replaceCall_of_mem hcall none hmem with he | hin
    · cases he
      exact .inl (hwritten j hj hne)
    · exact .inr ⟨q', peer', registeredAt', hin, rfl⟩
  refine ⟨hreached, record_names h.records hplain.scope hplain, ?_, h.client, hregistered, ?_, ?_⟩
  · intro q' peer' p' hmem
    exact h.workers q' peer' p' (List.mem_of_mem_eraseIdx hmem)
  · intro n j hn hj hne
    rcases h.owed n j hn hj hne with hrecorded | hrecords | hclient
    · exact .inl (hkept n j hrecorded hne)
    · rcases hworker n j hj hne hrecords with hrecorded | hleft
      · exact .inl hrecorded
      · exact .inr (.inl hleft)
    · exact .inr (.inr hclient)
  · intro t m c j he
    obtain ⟨hn, hne, hbound, hlasting⟩ := h.passed t m c j he
    refine ⟨hn, hne, hbound, ?_⟩
    rcases hlasting with hrecorded | hrecords
    · exact .inl (hkept _ j hrecorded hne)
    · exact hworker _ j hbound hne hrecords

theorem hasPassed_of_mem {t m c i : String} (h : .passed t m c i ∈ s.events) :
    hasPassed s ⟨t, m, c⟩ = true := by
  rw [hasPassed, List.any_eq_true]
  exact ⟨_, h, by simp⟩

variable [FloatArith F]

/-- The identifiers of the three requests contain no colon. -/
def noColons : Action F → Bool
  | .registerClient q _ _ => noColon q.tenantId && noColon q.modelId && noColon q.clientId
  | .registerWorker q _ _ =>
    noColon q.tenantId && noColon q.modelId && noColon q.workerId && noColon q.trainerClientId
  | .submitWeights q _ => noColon q.tenantId && noColon q.modelId && noColon q.clientId
  | _ => true

def leavesUnrecorded (s : Server F) : Call F → Bool
  | .registerWorker q _ (.record _) =>
    storedIdentity s.world.store (workerName q) == "" && hasPassed s (workerName q)
  | _ => false

/-- The writes of the store follow those of the registry. -/
def bindsInOrder (s : Server F) : Action F → Bool
  | .proceed _ =>
    match s.federated with
    | some (.registerClient info (.record _)) => recordsBound s info
    | _ => true
  | .call i _ =>
    match s.calls[i]? with
    | some (.registerWorker q peer (.record registeredAt)) =>
      recordsBound s (trainerInfo q peer registeredAt)
    | _ => true
  | .restart _ => s.calls.all (fun call => !leavesUnrecorded s call)
  | _ => true

theorem workerName_plain {q : WorkerRegistration} (hm : noColon q.modelId = true)
    (hw : noColon q.workerId = true) (hc : noColon q.trainerClientId = true) :
    (workerName q).Plain := by
  simp only [noColon, Bool.not_eq_true', List.contains_eq_mem, decide_eq_false_iff_not] at hw hc
  have hworker : ':' ∉ (workerId q).toList := by
    unfold workerId
    split
    · rw [String.toList_append, List.mem_append, not_or]
      exact ⟨hc, by decide⟩
    · exact hw
  apply plain_of_noColon hm
  unfold trainerClientId
  split
  · rw [String.toList_append, List.mem_append, not_or]
    exact ⟨hworker, by decide⟩
  · exact hc

theorem restart_bound {P : Crypto.Primitives} {start : Start} (h : Bound s)
    (hok : s.calls.all (fun call => !leavesUnrecorded s call) = true)
    (hs : restart P s start = some s') (hreached : StoreReached s') : Bound s' := by
  obtain ⟨hclients, -, hregistry, -, -, hcalls, hfederated, hevents⟩ :=
    restart_restarted h.reached hs
  have hrecords : ∀ c ∈ s'.world.store.clients, (recordName c).Plain := by
    rw [hclients]
    exact h.records
  have hidentity : ∀ n, recordIdentity s'.world.store n = recordIdentity s.world.store n := by
    intro n
    rw [recordIdentity, hclients]
    rfl
  have hbound : ∀ n : ClientName, n.Plain →
      boundIdentity s'.world.registry n.key = recordIdentity s'.world.store n := by
    intro n hn
    rw [hregistry]
    exact loadRegistry_identity hrecords hn
  refine ⟨hreached, hrecords, ?_, ?_, ?_, ?_, ?_⟩
  · intro q peer p hmem
    rw [hcalls] at hmem
    cases hmem
  · intro info hinfo
    rw [clientInRegistration, hfederated] at hinfo
    cases hinfo
  · intro n i hn hi _
    rw [hbound n hn, hi]
  · intro n i hn hi _
    rw [hbound n hn] at hi
    exact .inl hi
  · intro t m c i he
    rw [hevents] at he
    obtain ⟨hn, hne, hregistered, hlasting⟩ := h.passed t m c i he
    have hrecorded : recordIdentity s.world.store ⟨t, m, c⟩ = some i := by
      rcases hlasting with hrecorded | ⟨q, peer, registeredAt, hmem, hname⟩
      · exact hrecorded
      · have hleaves := List.all_eq_true.mp hok _ hmem
        rw [leavesUnrecorded, hname, hasPassed_of_mem he] at hleaves
        have hstored : storedIdentity s.world.store ⟨t, m, c⟩ ≠ "" := by simpa using hleaves
        have hstoredBound := h.registered _ _ hn (recordIdentity_of_stored hstored) hstored
        rw [recordIdentity_of_stored hstored, ← hstoredBound, hregistered]
    rw [← hidentity] at hrecorded
    exact ⟨hn, hne, by rw [hbound _ hn, hrecorded], .inl hrecorded⟩

/-- The identifiers are in the domain, and the step binds in order. -/
def BindsInOrder (s : Server F) (a : Action F) : Prop :=
  noColons a = true ∧ bindsInOrder s a = true

theorem step_bound (h : Bound s) (ha : BindsInOrder s a) (hs : Process.step d s a = some s') :
    Bound s' := by
  obtain ⟨hcolons, horder⟩ := ha
  have hreached := step_storeReached h.reached hs
  cases step_bindingStep hs with
  | kept hk => exact kept_bound h hk hreached
  | @registerClient q peer now hidle haccept =>
    simp only [noColons, Bool.and_eq_true] at hcolons
    have hclient : ':' ∉ q.clientId.toList := by simpa [noColon] using hcolons.2
    exact registerClient_bound h hidle haccept (plain_of_noColon hcolons.1.2 hclient) hreached
  | @submit q peer hidle =>
    simp only [noColons, Bool.and_eq_true] at hcolons
    have hclient : ':' ∉ q.clientId.toList := by simpa [noColon] using hcolons.2
    exact submit_bound h hidle (plain_of_noColon hcolons.1.2 hclient) hreached
  | recordClient hcall =>
    simp only [bindsInOrder, hcall] at horder
    exact recordClient_bound h hcall horder rfl hreached
  | @addWorker q peer now _ hk hcalls =>
    have hrest := kept_bound h hk hreached
    simp only [noColons, Bool.and_eq_true] at hcolons
    have hplain := workerName_plain hcolons.1.1.2 hcolons.1.2 hcolons.2
    have hsame : ∀ n, WorkerRecords s n → WorkerRecords s' n := by
      rintro n ⟨q', peer', registeredAt, hmem, hname⟩
      exact ⟨q', peer', registeredAt, by rw [hcalls]; exact List.mem_append_left _ hmem, hname⟩
    refine ⟨hreached, hrest.records, ?_, hrest.client, hrest.registered, ?_, ?_⟩
    · intro q' peer' p hmem
      rw [hcalls] at hmem
      rcases List.mem_append.mp hmem with hold | hnew
      · exact h.workers q' peer' p hold
      · cases List.mem_singleton.mp hnew
        exact hplain
    · intro n i hn hi hne
      rcases hrest.owed n i hn hi hne with hrecorded | hworker | hclient
      · exact .inl hrecorded
      · exact .inr (.inl (hsame n hworker))
      · exact .inr (.inr hclient)
    · intro t m c i he
      obtain ⟨hn, hne, hbound, hlasting⟩ := hrest.passed t m c i he
      exact ⟨hn, hne, hbound, hlasting.imp id (hsame _)⟩
  | @worker i now q peer p hcall =>
    cases p with
    | isRegistered =>
      exact worker_bound h hcall (by simp) s.world.registry
        (stepRegisterWorker s.world q peer now .isRegistered).2 (fun _ _ hj _ => hj)
        (fun _ _ hj => .inl hj) rfl hreached
    | register =>
      refine worker_bound h hcall (by simp) _ _ ?_ ?_ rfl hreached
      · intro key j hj _
        rw [register_bindings, if_neg (fun hadds => by rw [hadds.2] at hj; cases hj), hj]
      · intro key j hj
        rw [register_bindings] at hj
        split at hj
        · rename_i hadds
          exact .inr ⟨hadds.1, _, rfl⟩
        · exact .inl hj
    | bind =>
      refine worker_bound h hcall (by simp) _ _ ?_ ?_ rfl hreached
      · intro key j hj hne
        rw [bindPeerIdentityIfMissing_bindings, if_neg, hj]
        rintro ⟨-, hempty⟩
        rw [hj] at hempty
        exact hne (Option.some.inj hempty)
      · intro key j hj
        rw [bindPeerIdentityIfMissing_bindings] at hj
        split at hj
        · rename_i hempty
          obtain ⟨rfl, hunbound⟩ := hempty
          exact .inr ⟨rfl, _, if_pos (bind_succeeds hunbound)⟩
        · exact .inl hj
    | record registeredAt =>
      simp only [bindsInOrder, hcall] at horder
      exact recordWorker_bound h hcall horder rfl hreached
  | restart hrestart => exact restart_bound h horder hrestart hreached

/-- In a run of the condition all requests that pass for a client have the same
identity. -/
theorem bindings_lasting {start : Start}
    (h : Reaches (Process.step d) BindsInOrder (initial d start) s) {t m c i j : String}
    (hi : .passed t m c i ∈ s.events) (hj : .passed t m c j ∈ s.events) : i = j := by
  have hbound : Bound s := h.invariant (initial_bound d start)
    (fun _ _ _ hb ha hs => step_bound hb ha hs)
  have hsame := (hbound.passed t m c i hi).bound.symm.trans (hbound.passed t m c j hj).bound
  exact Option.some.inj hsame

def worker : Peer := ⟨true, "pqfl-worker"⟩

def addingWorker : Action Binary32 :=
  .registerWorker { workerId := "w", trainerClientId := "a", tenantId := "t", modelId := "m"
                    hostname := "host", launcher := "container", maxParallelTasks := 1
                    labels := [], advertisedDatasetSize := 1 } worker 0

def submittingAs (peer : Peer) : Action Binary32 := .submitWeights (zeroSubmission "a" 1 "" "") peer

def passedAs (s : Server Binary32) (identity : String) : Bool :=
  s.events.any (fun e => match e with
    | .passed t m c i => (t, m, c, i) == ("t", "m", "a", identity)
    | _ => false)

theorem mem_of_passedAs {s : Server Binary32} {identity : String}
    (h : passedAs s identity = true) : .passed "t" "m" "a" identity ∈ s.events := by
  obtain ⟨e, he, htest⟩ := List.any_eq_true.mp h
  cases e with
  | passed t m c i =>
    obtain ⟨rfl, rfl, rfl, rfl⟩ : t = "t" ∧ m = "m" ∧ c = "a" ∧ i = identity := by
      simpa using htest
    exact he
  | _ => cases htest

/-- The trainer of the worker submits before and after a restart. -/
def restartedServer : Server Binary32 :=
  (execTested (Process.step standardDeployment) (fun s a => noColons a && bindsInOrder s a)
    ([addingWorker, .call 0 0, .call 0 0, .call 0 0, submittingAs worker, .restart firstStart] ++
      registering "a" site ++ [submittingAs worker])
    (initial standardDeployment firstStart)).get (by decide +kernel)

theorem bindings_lasting_restartedServer :
    .passed "t" "m" "a" "pqfl-worker" ∈ restartedServer.events ∧
      ∀ i, .passed "t" "m" "a" i ∈ restartedServer.events → i = "pqfl-worker" := by
  have hreach : Reaches (Process.step standardDeployment) BindsInOrder
      (initial standardDeployment firstStart) restartedServer := by
    refine execTested_reaches _ ?_ _ (Option.some_get _).symm
    intro s a ha
    exact Bool.and_eq_true_iff.mp ha
  have htest : passedAs restartedServer "pqfl-worker" = true := by decide +kernel
  have hpassed := mem_of_passedAs htest
  exact ⟨hpassed, fun i hi => bindings_lasting hreach hi hpassed⟩

/-- The registry has the client from its own registration, the store from the
registration of the worker. -/
def racedRun : List (Action Binary32) :=
  [addingWorker, .call 0 0, .registerClient ⟨"t", "m", "a", 1, "", ""⟩ site 0, .call 0 0, .call 0 0] ++
    proceeds 4 0 ++ [submittingAs site, .restart firstStart, submittingAs worker]

theorem raced_binding_changes :
    ¬ ∀ s, Reaches (Process.step standardDeployment) (fun _ a => noColons a = true)
      (initial standardDeployment firstStart) s → ∀ t m c i j, .passed t m c i ∈ s.events →
        .passed t m c j ∈ s.events → i = j := by
  intro hall
  have hrun : (execTested (Process.step standardDeployment) (fun _ a => noColons a) racedRun
      (initial standardDeployment firstStart)).any
        (fun s => passedAs s "site" && passedAs s "pqfl-worker") = true := by
    decide +kernel
  rw [Option.any_eq_true] at hrun
  obtain ⟨s, hs, hboth⟩ := hrun
  rw [Bool.and_eq_true] at hboth
  have hsame := hall s (execTested_reaches _ (fun _ _ ha => ha) _ hs) _ _ _ _ _
    (mem_of_passedAs hboth.1) (mem_of_passedAs hboth.2)
  exact absurd hsame (by decide)

end PqFl.CertificateBinding
