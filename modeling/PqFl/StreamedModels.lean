import PqFl.ClientPayloads
import PqFl.LatestModels
import PqFl.RollbackFidelity
import PqFl.StreamDelivery
import PqFl.SignedUpdates

/-!
# The models that clients receive

What the clients make of an update of `StreamGlobalModel`. While no aggregation
writes a round that a restart opened again, nor the file of another scope, the
latest model of a scope is always one that was recorded; so whatever a stream
writes at any time, its client opens to the weights of the version which the
update names.
-/

set_option autoImplicit false

namespace PqFl.StreamedModels
open PqFl.Identifiers PqFl.StoreRecords PqFl.StateStore PqFl.Crypto PqFl.Aggregation PqFl.Buffer
open PqFl.Services PqFl.Process PqFl.JobSteps PqFl.ModelSteps PqFl.CheckpointWrites
open PqFl.ServerStore PqFl.RecordedRounds PqFl.RollbackFidelity PqFl.LatestModels PqFl.Streams
open PqFl.SessionContexts PqFl.SignedUpdates PqFl.PythonClient PqFl.ClientPayloads PqFl.Runs
open PqFl.Configuration PqFl.Floats

/-- `DecapsulateKem`; the length of the client's own key is always right. -/
def decapsulateKem (P : Primitives) (secretKey kemCiphertext : Bytes) : Option Bytes :=
  if kemCiphertext.length ≠ P.kemCiphertextLength then none
  else P.kemDecaps secretKey kemCiphertext

/-- The key agreement and the decryption, which all clients write out. -/
def openUpdate (P : Primitives) (keyFrom : Bytes → Except String Key)
    (payloadSecret streamSecretKey : Bytes) (update : GlobalModelUpdate) : Except String Bytes :=
  let sessionKey :=
    if update.keyAgreement = "ml-kem-1024" then
      match decapsulateKem P streamSecretKey update.kemCiphertext with
      | none => .error "ML-KEM-1024 stream decapsulation failed"
      | some sharedSecret => keyFrom sharedSecret
    else keyFrom payloadSecret
  sessionKey.bind (fun key => decryptWithKey P key update.encryptedWeights
    (Block.read 12 update.iv) (Block.read 16 update.authTag))

/-- The context of the C++ clients. -/
def streamContextOf (identity clientId : String) : List Bytes :=
  [utf8 identity, utf8 demoTenantId, utf8 demoModelId, utf8 clientId, utf8 "stream"]

def demoModelRequest (clientId : String) (lastReceivedRound : ℤ) (publicKey : Bytes) :
    ModelRequest where
  clientId := clientId
  lastReceivedRound := lastReceivedRound
  tenantId := demoTenantId
  modelId := demoModelId
  clientKemPublicKey := publicKey

section
variable {F : Type}
variable {d : Deployment F} {w : World F} {c : StreamGlobalModelCall} {o : StreamOracle}
variable {s s' : Server F} {a : Action F}

def snapshotOf (y : AggregatedModel F) : LatestModelSnapshot F := ⟨y.round, y.version, y.weights⟩

/-- The model that a submission is about to publish has its record. -/
def PublishedPoint (s : Server F) (q : SubmitWeightsRequest) : SubmitPoint F → Prop
  | .publish _ p v => ⟨normalizeTenant q.tenantId, normalizeModel q.modelId, q.roundIndex, v,
      p.result⟩ ∈ recordedModels s
  | _ => True

structure LatestRecorded (s : Server F) : Prop where
  latest : ∀ scope model, latestModel s scope = some model →
    ∃ y ∈ recordedModels s, scope = scopeKey y.tenantId y.modelId ∧ model = snapshotOf y
  point : ∀ c, submitting s = some c → PublishedPoint s c.q c.point

theorem publishedPoint_unlocked (s : Server F) (q : SubmitWeightsRequest) {p : SubmitPoint F}
    (h : p.locksBuffer = false) : PublishedPoint s q p := by
  cases p with
  | publish job p v => cases h
  | _ => trivial

theorem PublishedPoint.mono {q : SubmitWeightsRequest} {p : SubmitPoint F}
    (h : PublishedPoint s q p) (hsub : recordedModels s ⊆ recordedModels s') :
    PublishedPoint s' q p := by
  cases p with
  | publish job p v => exact hsub h
  | _ => trivial

theorem initial_latestRecorded (d : Deployment F) (start : Start) :
    LatestRecorded (initial d start) where
  latest := by
    intro scope model h
    cases h
  point := by
    intro c hc
    cases hc

theorem recorded_normal (hg : Guarded d s) {y : AggregatedModel F} (hy : y ∈ recordedModels s) :
    normalizeTenant y.tenantId = y.tenantId ∧ normalizeModel y.modelId = y.modelId := by
  have hlabel : aggregatedLabel y ∈ s.world.store.models.map storedLabel := by
    rw [← hg.recorded]
    exact List.mem_map_of_mem hy
  obtain ⟨x, hx, hsame⟩ := List.mem_map.mp hlabel
  obtain ⟨⟨htenant, hmodel, -⟩, -⟩ : (x.tenantId = y.tenantId ∧ x.modelId = y.modelId ∧
      x.latestRound = y.round) ∧ x.version = y.version := by
    simpa [aggregatedLabel, storedLabel, aggregatedRound, storedRound] using hsame
  rw [← htenant, ← hmodel]
  exact hg.normal x hx

theorem aggregatedAs_of_recorded (hr : StoreReached s) (hg : Guarded d s) {y : AggregatedModel F}
    (hy : y ∈ recordedModels s) : AggregatedAs s y.tenantId y.modelId y.version y.weights := by
  constructor
  · exact ⟨y.round, mem_recordedModels.mp hy⟩
  · intro round weights hother
    have hsame := recorded_unique hr hg (mem_recordedModels.mpr hother) hy rfl
    exact congrArg AggregatedModel.weights hsame

variable [FloatArith F]

/-- `FLTestClient::ReceiveOneGlobalModel` after the read; it reports whether the
signature verified, and copies whole floats. -/
def receiveOneGlobalModel (P : Primitives) (verifySignature : Bytes → Bytes → Bool)
    (payloadSecret streamSecretKey : Bytes) (cid : String) (update : GlobalModelUpdate) :
    Except String (Bool × List F) :=
  (openUpdate P (fun secret => deriveSessionKeyWithSecret P secret
    (streamContextOf testCertIdentity cid)) payloadSecret streamSecretKey update).map
      (fun plaintext => (signatureOk verifySignature update, bytesFloats plaintext))

/-- `WorkerDemoClient::FetchBaseModelIfAvailable` after the read. -/
def fetchBaseModelIfAvailable (P : Primitives) (verifySignature : Bytes → Bytes → Bool)
    (payloadSecret streamSecretKey : Bytes) (trainerClientId : String)
    (update : GlobalModelUpdate) : Except String (List F) :=
  (openUpdate P (fun secret => deriveSessionKeyWithSecret P secret
    (streamContextOf workerCertIdentity trainerClientId)) payloadSecret streamSecretKey
      update).bind (fun plaintext =>
        if !signatureOk verifySignature update then
          .error "Global model signature verification failed"
        else if plaintext.length % 4 ≠ 0 then .error "Base model had invalid tensor dimensions"
        else .ok (bytesFloats plaintext))

/-- `fetch_base_model` of `train.py` after the read; it never looks at the signature. -/
def fetchBaseModel (P : Primitives) (secret streamSecretKey : Bytes) (args : Args)
    (update : GlobalModelUpdate) : Except String (ℤ × List F) :=
  (openUpdate P (fun secret => .ok (PythonClient.deriveSessionKey P secret
    (streamKeyContext args))) secret streamSecretKey update).bind (fun plaintext =>
      if plaintext.length % 4 ≠ 0 then
        .error "decrypted tensor byte length is not divisible by float32 size"
      else .ok (update.roundIndex, bytesFloats plaintext))

/-- How the key of an update came about. -/
def KeyAgreed (P : Primitives) (e : CryptoEngine) (q : ModelRequest) (peer : Peer)
    (o : StreamOracle) (update : GlobalModelUpdate) (key : Key) : Prop :=
  (q.clientKemPublicKey ≠ [] ∧ update.keyAgreement = "ml-kem-1024" ∧
    ∃ sharedSecret, o.encapsulated = some (update.kemCiphertext, sharedSecret) ∧
      deriveSessionKeyWithSecret P sharedSecret (streamContext q peer) = .ok key) ∨
  (q.clientKemPublicKey = [] ∧ update.keyAgreement = "shared-secret" ∧
    Crypto.deriveSessionKey P e (streamContext q peer) = .ok key)

/-- An update is the latest model under the session key of its stream. -/
structure SealsLatest (P : Primitives) (e : CryptoEngine) (latest : LatestModelSnapshot F)
    (q : ModelRequest) (peer : Peer) (o : StreamOracle) (update : GlobalModelUpdate) : Prop where
  round : update.roundIndex = latest.round
  version : update.modelVersion = latest.modelVersion
  nonempty : latest.round ≠ -1
  sealed : ∃ key iv, KeyAgreed P e q peer o update key ∧ update.iv = iv.1 ∧
    update.encryptedWeights = (P.gcmSeal key iv (floatBytes latest.weights)).1 ∧
    update.authTag = (P.gcmSeal key iv (floatBytes latest.weights)).2.1

theorem writeUpdate_seals {e : CryptoEngine} {latest : LatestModelSnapshot F} {key : Key}
    {kemCiphertext : Bytes} {keyAgreement : String} {update : GlobalModelUpdate}
    (hround : latest.round ≠ -1)
    (hagreed : ∀ u : GlobalModelUpdate, u.kemCiphertext = kemCiphertext →
      u.keyAgreement = keyAgreement → KeyAgreed d.primitives e c.request c.peer o u key)
    (h : .write update ∈ (writeUpdate d e { c with lastSentRound := latest.round } latest key
      kemCiphertext keyAgreement o).operations) :
    SealsLatest d.primitives e latest c.request c.peer o update := by
  unfold writeUpdate at h
  cases hiv : o.iv with
  | none =>
    rw [hiv] at h
    simp [finishWithStatus] at h
  | some iv =>
    rw [hiv] at h
    cases List.mem_singleton.mp h
    exact ⟨rfl, rfl, hround, key, iv, hagreed _ rfl rfl, rfl, rfl, rfl⟩

theorem sendLatest_seals {e : CryptoEngine} {latest : LatestModelSnapshot F} {p : Proceeded}
    {update : GlobalModelUpdate} (hround : latest.round ≠ -1)
    (h : sendLatest d e c latest o = .ok p) (hupdate : .write update ∈ p.operations) :
    SealsLatest d.primitives e latest c.request c.peer o update := by
  unfold sendLatest at h
  simp only at h
  split at h
  · rename_i hpublic
    cases hkem : o.encapsulated with
    | none =>
      rw [hkem] at h
      cases h
      simp [finishWithStatus] at hupdate
    | some pair =>
      obtain ⟨kemCiphertext, sharedSecret⟩ := pair
      rw [hkem] at h
      obtain ⟨key, hkey, rfl⟩ := ok_of_map h
      apply writeUpdate_seals hround _ hupdate
      rintro u rfl hagreement
      exact .inl ⟨hpublic, hagreement, sharedSecret, hkem, hkey⟩
  · rename_i hpublic
    obtain ⟨key, hkey, rfl⟩ := ok_of_map h
    apply writeUpdate_seals hround _ hupdate
    intro u _ hagreement
    exact .inr ⟨not_not.mp hpublic, hagreement, hkey⟩

theorem serve_seals {p : Proceeded} {update : GlobalModelUpdate} (h : serve d w c o = .ok p)
    (hupdate : .write update ∈ p.operations) :
    SealsLatest d.primitives w.crypto (getLatestGlobalModel w.buffer
      (normalizeTenant c.request.tenantId) (normalizeModel c.request.modelId)) c.request c.peer o
        update := by
  unfold serve at h
  simp only at h
  split at h
  · split at h
    · cases h
      simp at hupdate
    · cases h
      simp at hupdate
  · rename_i hnew
    exact sendLatest_seals (fun hnone => hnew (.inl hnone)) h hupdate

theorem proceedStatus_seals {p : Proceeded} {update : GlobalModelUpdate}
    (h : proceedStatus d w c o = .ok p) (hupdate : .write update ∈ p.operations) :
    SealsLatest d.primitives w.crypto (getLatestGlobalModel w.buffer
      (normalizeTenant c.request.tenantId) (normalizeModel c.request.modelId)) c.request c.peer o
        update := by
  unfold proceedStatus at h
  split at h
  · cases h
    simp at hupdate
  · obtain ⟨p', hp', rfl⟩ := ok_of_map h
    unfold acceptStream at hp'
    split at hp'
    · cases hp'
      simp [finishWithStatus] at hupdate
    · have hseals := serve_seals hp' hupdate
      exact hseals
  · exact serve_seals h hupdate
  · cases h
    simp at hupdate

theorem proceed_seals {ok : Bool} {event : StreamEvent} {p : Proceeded}
    {update : GlobalModelUpdate} (h : Streams.proceed d w c ok event o = .ok p)
    (hupdate : .write update ∈ p.operations) :
    SealsLatest d.primitives w.crypto (getLatestGlobalModel w.buffer
      (normalizeTenant c.request.tenantId) (normalizeModel c.request.modelId)) c.request c.peer o
        update := by
  unfold Streams.proceed at h
  cases event with
  | finish =>
    cases h
    simp at hupdate
  | done =>
    cases h
    dsimp only at hupdate
    split at hupdate <;> simp at hupdate
  | write =>
    simp only at h
    split at h
    · cases h
      simp at hupdate
    · have hseals := proceedStatus_seals h hupdate
      exact hseals
  | alarm =>
    simp only at h
    split at h
    · cases h
      simp at hupdate
    · have hseals := proceedStatus_seals h hupdate
      exact hseals
  | start =>
    simp only at h
    split at h
    · cases h
      simp at hupdate
    · exact proceedStatus_seals h hupdate
  | request =>
    simp only at h
    split at h
    · cases h
      simp at hupdate
    · exact proceedStatus_seals h hupdate

theorem step_recordedModels (h : Process.step d s a = some s') :
    recordedModels s ⊆ recordedModels s' := by
  intro y hy
  obtain ⟨e, he, hmodel⟩ := List.mem_filterMap.mp hy
  apply List.mem_filterMap.mpr
  refine ⟨e, ?_, hmodel⟩
  rcases SubmissionTracking.step_history h with ⟨es, hhistory, hpast, -⟩ | ⟨hhistory, hpast⟩
  · rw [Server.events, hhistory, hpast, ← List.append_assoc]
    exact List.mem_append_left _ he
  · rw [Server.events, hhistory, hpast, List.append_nil]
    exact he

theorem submit_publishedPoint {c c' : Submitting F} {o : Oracle F} (h : SubmitStep d s c o s')
    (hc' : submitting s' = some c') : PublishedPoint s' c'.q c'.point := by
  have hunlocked : c'.point.locksBuffer = false → PublishedPoint s' c'.q c'.point :=
    publishedPoint_unlocked s' c'.q
  cases h with
  | on hpoint hview hnext => exact hunlocked (hnext c' hc')
  | removed hpoint haggregates htorn hview hnext => exact hunlocked (hnext c' hc')
  | written hpoint haggregates hwritten hpath hview hnext =>
    obtain rfl := Option.some.inj (hnext.symm.trans hc')
    trivial
  | keyVersion hpoint hview hnext =>
    obtain rfl := Option.some.inj (hnext.symm.trans hc')
    trivial
  | recorded hpoint hview hnext =>
    obtain rfl := Option.some.inj (hnext.symm.trans hc')
    have hevents := congrArg ModelView.events hview
    show _ ∈ recordedModels s'
    rw [recordedModels_eq, show modelEvents s' = _ from hevents, List.filterMap_append]
    exact List.mem_append_right _ List.mem_cons_self
  | published hpoint hview hnext => exact hunlocked (hnext c' hc')

theorem restorePersistedModels_latest (P : Primitives) (w : World F)
    (models : List PersistedModelRecord) (scope : String) (model : LatestModelSnapshot F)
    (h : (restorePersistedModels P w models).latestModels.lookup scope = some model) :
    ∃ x ∈ models, scope = scopeKey x.tenantId x.modelId ∧
      readCheckpoint P w x.checkpointPath = .ok model.weights ∧
      model.round = x.latestRound ∧ model.modelVersion = x.version := by
  revert h
  apply List.foldlRecOn models _ (motive := fun b : WeightBuffer F =>
    b.latestModels.lookup scope = some model → ∃ x ∈ models,
      scope = scopeKey x.tenantId x.modelId ∧
      readCheckpoint P w x.checkpointPath = .ok model.weights ∧
      model.round = x.latestRound ∧ model.modelVersion = x.version)
  · intro h
    cases h
  · intro b hb x hx h
    cases hread : readCheckpoint P w x.checkpointPath with
    | error what =>
      rw [hread] at h
      exact hb h
    | ok weights =>
      rw [hread] at h
      by_cases hscope : scope = scopeKey x.tenantId x.modelId
      · rw [hscope] at h
        cases (AList.lookup_insert b.latestModels).symm.trans h
        exact ⟨x, hx, hscope, hread, rfl, rfl⟩
      · apply hb
        rw [← h]
        exact (AList.lookup_insert_ne hscope).symm

theorem restart_latestRecorded {start : Start} (hr : StoreReached s) (hs : Restorable d s')
    (h : restart d.primitives s start = some s') : LatestRecorded s' := by
  have hrestarted := restart_restarted hr h
  obtain ⟨w, hw, rfl⟩ := Option.map_eq_some_iff.mp h
  obtain ⟨keys, -, rfl⟩ := Option.map_eq_some_iff.mp hw
  constructor
  · intro scope model hmodel
    obtain ⟨x, hx, hscope, hread, hround, hversion⟩ :=
      restorePersistedModels_latest _ _ _ scope model hmodel
    obtain ⟨y, hy, hlabel, hholds⟩ := hs.stored x (List.mem_filter.mp hx).1
    have hweights : model.weights = y.weights := by
      have hsame := hread.symm.trans hholds.read
      exact Except.ok.inj hsame
    obtain ⟨⟨htenant, hmodelId, hlatest⟩, hnumber⟩ : (y.tenantId = x.tenantId ∧
        y.modelId = x.modelId ∧ y.round = x.latestRound) ∧ y.version = x.version := by
      simpa [aggregatedLabel, storedLabel, aggregatedRound, storedRound] using hlabel
    refine ⟨y, hy, ?_, ?_⟩
    · rw [htenant, hmodelId, hscope]
    · rw [snapshotOf, hlatest, hnumber, ← hround, ← hversion, ← hweights]
  · intro c hc
    rw [submitting, hrestarted.federated] at hc
    cases hc

theorem putModel_recorded {scope : String} {model : LatestModelSnapshot F} (hs : LatestRecorded s)
    (hrestorable : Restorable d s) (h : putModel s a = some (scope, model)) :
    ∃ y ∈ recordedModels s, scope = scopeKey y.tenantId y.modelId ∧ model = snapshotOf y := by
  cases a with
  | proceed o =>
    obtain ⟨call, hcall, hput⟩ := Option.bind_eq_some_iff.mp h
    unfold putBySubmission at hput
    split at hput
    · rename_i q peer serial job p v
      cases hput
      have hc : submitting s = some ⟨q, peer, serial, .publish job p v⟩ := by
        rw [submitting, hcall]
      exact ⟨_, hs.point _ hc, rfl, rfl⟩
    · cases hput
  | call i now =>
    obtain ⟨call, hcall, hput⟩ := Option.bind_eq_some_iff.mp h
    unfold putByRollback at hput
    split at hput
    · rename_i target weights
      cases hput
      obtain ⟨y, hy, hlabel, rfl⟩ := hrestorable.calls target _ (List.mem_of_getElem? hcall)
      obtain ⟨⟨htenant, hmodel, hround⟩, hversion⟩ : (y.tenantId = target.tenantId ∧
          y.modelId = target.modelId ∧ y.round = target.latestRound) ∧
          y.version = target.version := by
        simpa [aggregatedLabel, storedLabel, aggregatedRound, storedRound] using hlabel
      refine ⟨y, hy, ?_, ?_⟩
      · rw [htenant, hmodel]
      · rw [snapshotOf, hround, hversion]
    · cases hput
  | _ => cases h

theorem step_publishedPoint (hs : LatestRecorded s) (h : Process.step d s a = some s')
    (hrestart : ∀ start, a ≠ .restart start) {c : Submitting F} (hc : submitting s' = some c) :
    PublishedPoint s' c.q c.point := by
  have hsub := step_recordedModels h
  have hkept : submitting s' = submitting s → PublishedPoint s' c.q c.point := by
    intro hsame
    rw [hsame] at hc
    exact (hs.point c hc).mono hsub
  cases step_modelStep h with
  | kept hbeside => exact hkept hbeside.submitting
  | submit hidle =>
    cases hc
    exact publishedPoint_unlocked _ _ (KeyVersions.startSubmitWeights_unlocked _ _ _)
  | @proceed c' o hc' => exact submit_publishedPoint (proceed_submitStep c' o) hc
  | rollback htarget => exact hkept rfl
  | unreadable hcall hread => exact hkept rfl
  | readable hcall hread => exact hkept rfl
  | restored hcall hfree => exact hkept rfl
  | rotated hrotated => exact hkept rfl
  | restart hs => exact absurd rfl (hrestart _)

theorem step_latestRecorded (hr : StoreReached s) (hrestorable : Restorable d s)
    (hrestorable' : Restorable d s') (hs : LatestRecorded s)
    (h : Process.step d s a = some s') : LatestRecorded s' := by
  by_cases hrestart : ∃ start, a = .restart start
  · obtain ⟨start, rfl⟩ := hrestart
    exact restart_latestRecorded hr hrestorable' h
  have hnot : ∀ start, a ≠ .restart start := fun start ha => hrestart ⟨start, ha⟩
  have hsub := step_recordedModels h
  constructor
  · intro scope model hmodel
    rw [step_latestModel h hnot scope, afterPut] at hmodel
    have hold : latestModel s scope = some model → ∃ y ∈ recordedModels s',
        scope = scopeKey y.tenantId y.modelId ∧ model = snapshotOf y := by
      intro hlatest
      obtain ⟨y, hy, hsame⟩ := hs.latest scope model hlatest
      exact ⟨y, hsub hy, hsame⟩
    cases hput : putModel s a with
    | none =>
      rw [hput] at hmodel
      exact hold hmodel
    | some put =>
      rw [hput] at hmodel
      dsimp only at hmodel
      split at hmodel
      · rename_i hscope
        cases hmodel
        obtain ⟨y, hy, hkey, hsnapshot⟩ := putModel_recorded hs hrestorable hput
        exact ⟨y, hsub hy, hscope.trans hkey, hsnapshot⟩
      · exact hold hmodel
  · intro c hc
    exact step_publishedPoint hs h hnot hc

theorem run_latestRecorded {start : Start}
    (h : Reaches (Process.step d) (NewRound d) (initial d start) s) :
    StoreReached s ∧ Guarded d s ∧ LatestRecorded s := by
  have hall : StoreReached s ∧ Guarded d s ∧ Restorable d s ∧ LatestRecorded s := by
    apply h.invariant (I := fun s => StoreReached s ∧ Guarded d s ∧ Restorable d s ∧
      LatestRecorded s)
    · exact ⟨initial_storeReached d start, initial_guarded d start, initial_restorable d start,
        initial_latestRecorded d start⟩
    · intro s a s' hs ha hstep
      obtain ⟨hr, hg, hrestorable, hlatest⟩ := hs
      have hrestorable' := step_restorable hr hg hrestorable ha hstep
      exact ⟨step_storeReached hr hstep, step_guarded hr hg ha hstep, hrestorable',
        step_latestRecorded hr hrestorable hrestorable' hlatest hstep⟩
  exact ⟨hall.1, hall.2.1, hall.2.2.2⟩

/-- A client which opens a stream, with the arguments that its request is made of. -/
inductive StreamClient where
  | test (cid : String)
  | worker (trainerClientId : String) (roundIndex : ℤ)
  | python (args : Args) (roundIndex : ℤ)

def StreamClient.identity : StreamClient → String
  | .test _ => testCertIdentity
  | .worker _ _ => workerCertIdentity
  | .python _ _ => PythonClient.peerIdentity

/-- The request, with the public key of the stream if one was generated. -/
def StreamClient.request (publicKey : Bytes) : StreamClient → ModelRequest
  | .test cid => demoModelRequest cid 0 publicKey
  | .worker trainerClientId roundIndex =>
    demoModelRequest trainerClientId (max 0 (roundIndex - 2)) publicKey
  | .python args roundIndex => modelRequest args
    { lastReceivedRound := max 0 (roundIndex - 2), clientKemPublicKey := publicKey }

/-- The weights that the client gets out of an update. -/
def StreamClient.weights (P : Primitives) (verifySignature : Bytes → Bytes → Bool)
    (payloadSecret streamSecretKey : Bytes) (update : GlobalModelUpdate) :
    StreamClient → Except String (List F)
  | .test cid => (receiveOneGlobalModel P verifySignature payloadSecret streamSecretKey cid
      update).map (·.2)
  | .worker trainerClientId _ => fetchBaseModelIfAvailable P verifySignature payloadSecret
      streamSecretKey trainerClientId update
  | .python args _ => (fetchBaseModel P payloadSecret streamSecretKey args update).map (·.2)

/-- The scope is named, by identifiers without the separator of the keys. -/
structure NamesScope (q : ModelRequest) : Prop where
  valid : validateFederatedRequestIds q.tenantId q.modelId q.clientId = ""
  tenant : q.tenantId ≠ "" ∧ ':' ∉ q.tenantId.toList
  model : q.modelId ≠ "" ∧ ':' ∉ q.modelId.toList

/-- The key that the server derives for a stream. -/
def DerivesStreamKey (P : Primitives) (keyFrom : Bytes → Except String Key) (q : ModelRequest)
    (peer : Peer) : Prop :=
  ∀ secret : Bytes, secret.length = 32 →
    keyFrom secret = .ok (P.hmacSha256 secret (macInput (streamContext q peer)))

theorem openUpdate_seals {P : Primitives} {e : CryptoEngine}
    {keyFrom : Bytes → Except String Key} {payloadSecret streamSecretKey : Bytes}
    {latest : LatestModelSnapshot F} {q : ModelRequest} {peer : Peer}
    {update : GlobalModelUpdate} (hderives : DerivesStreamKey P keyFrom q peer)
    (hsecret : payloadSecret.length = 32 ∧ e.payloadSecret = payloadSecret)
    (hkem : q.clientKemPublicKey ≠ [] → Encapsulated P streamSecretKey o.encapsulated)
    (h : SealsLatest P e latest q peer o update) :
    openUpdate P keyFrom payloadSecret streamSecretKey update = .ok (floatBytes latest.weights) := by
  obtain ⟨key, iv, hagreed, hiv, hciphertext, htag⟩ := h.sealed
  have hopens : decryptWithKey P key update.encryptedWeights (Block.read 12 update.iv)
      (Block.read 16 update.authTag) = .ok (floatBytes latest.weights) := by
    rw [hiv, hciphertext, htag, Block.read_self, Block.read_self, decryptWithKey,
      P.gcmOpen_gcmSeal]
  unfold openUpdate
  rcases hagreed with ⟨hpublic, hagreement, sharedSecret, hdraw, hkey⟩ |
    ⟨hpublic, hagreement, hkey⟩
  · have hencapsulated := hkem hpublic
    have hmem : (update.kemCiphertext, sharedSecret) ∈ o.encapsulated := by
      rw [hdraw]
      rfl
    have hlength := hencapsulated.length _ hmem
    have hsecretLength := hencapsulated.secret _ hmem
    have hdecaps : decapsulateKem P streamSecretKey update.kemCiphertext = some sharedSecret := by
      rw [decapsulateKem, if_neg (not_not.mpr hlength)]
      exact hencapsulated.decaps _ hmem
    rw [deriveSessionKeyWithSecret_macInput P _ _ hsecretLength] at hkey
    cases hkey
    simp only [hagreement, if_true, hdecaps, hderives sharedSecret hsecretLength, Except.bind,
      hopens]
  · rw [Crypto.deriveSessionKey, hsecret.2,
      deriveSessionKeyWithSecret_macInput P _ _ hsecret.1] at hkey
    cases hkey
    have hshared : ¬ ("shared-secret" = "ml-kem-1024") := by decide
    simp only [hagreement, hshared, if_false, hderives payloadSecret hsecret.1, Except.bind,
      hopens]

theorem streamContextOf_derives {P : Primitives} {clientId identity : String} {peer : Peer}
    {lastReceivedRound : ℤ} {publicKey : Bytes} (hpeer : peer.identity = identity) :
    DerivesStreamKey P (fun secret => deriveSessionKeyWithSecret P secret
      (streamContextOf identity clientId))
      (demoModelRequest clientId lastReceivedRound publicKey) peer := by
  intro secret hlength
  have hcontext : streamContextOf identity clientId =
      streamContext (demoModelRequest clientId lastReceivedRound publicKey) peer := by
    rw [streamContext, hpeer]
    rfl
  dsimp only
  rw [deriveSessionKeyWithSecret_macInput P _ _ hlength, hcontext]

theorem streamKeyContext_derives {P : Primitives} {args : Args} {request : ModelRequest}
    {peer : Peer} (hscope : NamesScope (modelRequest args request))
    (hpeer : peer.identity = PythonClient.peerIdentity) :
    DerivesStreamKey P (fun secret => .ok (PythonClient.deriveSessionKey P secret
      (streamKeyContext args))) (modelRequest args request) peer := by
  obtain ⟨⟨-, htallowed⟩, ⟨-, hmallowed⟩, -, -, hcallowed⟩ :=
    validateFederatedRequestIds_eq_empty.mp hscope.valid
  intro secret hlength
  have hsingle : ∀ part ∈ streamKeyContext args, SingleBytes part := by
    intro part hpart
    simp only [streamKeyContext, List.mem_cons, List.not_mem_nil, or_false] at hpart
    rcases hpart with rfl | rfl | rfl | rfl | rfl
    · decide
    · exact singleBytes_of_allowed htallowed
    · exact singleBytes_of_allowed hmallowed
    · exact singleBytes_of_allowed hcallowed
    · decide
  have hcontext : (streamKeyContext args).map utf8 =
      streamContext (modelRequest args request) peer := by
    rw [streamContext, hpeer, ← (eq_normalizeTenant_iff _).mpr hscope.tenant.1,
      ← (eq_normalizeModel_iff _).mpr hscope.model.1]
    rfl
  dsimp only [PythonClient.deriveSessionKey]
  rw [toMac_eq_macInput hsingle, hcontext]

theorem weights_of_seals {P : Primitives} {e : CryptoEngine} {client : StreamClient}
    {verifySignature : Bytes → Bytes → Bool} {payloadSecret streamSecretKey publicKey : Bytes}
    {latest : LatestModelSnapshot F} {peer : Peer} {update : GlobalModelUpdate}
    (hscope : NamesScope (client.request publicKey)) (hpeer : peer.identity = client.identity)
    (hsecret : payloadSecret.length = 32 ∧ e.payloadSecret = payloadSecret)
    (hkem : publicKey ≠ [] → Encapsulated P streamSecretKey o.encapsulated)
    (hverifies : signatureOk verifySignature update = true)
    (h : SealsLatest P e latest (client.request publicKey) peer o update) :
    client.weights P verifySignature payloadSecret streamSecretKey update = .ok latest.weights := by
  have hlength : (floatBytes latest.weights).length % 4 = 0 := by
    rw [floatBytes_length]
    omega
  cases client with
  | test cid =>
    have hopen := openUpdate_seals (streamContextOf_derives hpeer) hsecret hkem h
    simp only [StreamClient.weights, receiveOneGlobalModel, StreamClient.identity] at hopen ⊢
    rw [hopen]
    simp only [Except.map, bytesFloats_floatBytes]
  | worker trainerClientId roundIndex =>
    have hopen := openUpdate_seals (streamContextOf_derives hpeer) hsecret hkem h
    simp only [StreamClient.weights, fetchBaseModelIfAvailable, StreamClient.identity] at hopen ⊢
    rw [hopen]
    simp only [Except.bind, hverifies, Bool.not_true, Bool.false_eq_true, if_false, hlength,
      ne_eq, not_true_eq_false, bytesFloats_floatBytes]
  | python args roundIndex =>
    have hopen := openUpdate_seals (streamKeyContext_derives hscope hpeer) hsecret hkem h
    simp only [StreamClient.weights, fetchBaseModel] at hopen ⊢
    rw [hopen]
    simp only [Except.bind, Except.map, hlength, ne_eq, not_true_eq_false, if_false,
      bytesFloats_floatBytes]

/-- What `NewRound` asks of the steps of the server. -/
def NewRounds (d : Deployment F) (s : StreamServer F) (a : StreamAction F) : Prop :=
  ∀ b, a = .serve b → NewRound d s.server b

theorem server_reaches {start : Start} {s : StreamServer F}
    (h : Reaches (streamStep d) (NewRounds d) (initialStreams d start) s) :
    Reaches (Process.step d) (NewRound d) (initial d start) s.server := by
  induction h with
  | start => exact .start
  | next _ ha hstep ih =>
    cases streamStep_result hstep with
    | served hserver hrestart => exact ih.next (ha _ rfl) hserver
    | restarted hserver => exact ih.next (ha _ rfl) hserver
    | arrived hslot hopen hmatched hrequest => exact ih
    | dequeued hslot havailable => exact ih
    | late hslot hheld hcall => exact ih
    | handled hslot hheld hcall hp => exact ih
    | shutDown => exact ih

theorem handle_writes {s s' : StreamServer F} {i : ℕ} {slot slot' : Slot}
    {c : StreamGlobalModelCall} {ok : Bool} {event : StreamEvent} {update : GlobalModelUpdate}
    (hstep : streamStep d s (.handle i event ok o) = some s') (hslot : s.slots[i]? = some slot)
    (hslot' : s'.slots[i]? = some slot') (hcall : slot.call = some c)
    (hupdate : update ∈ slot'.sent.drop slot.sent.length) :
    ∃ p, Streams.proceed d s.server.world c ok event o = .ok p ∧
      .write update ∈ p.operations := by
  cases streamStep_result hstep with
  | late hslot₁ hheld hnone =>
    cases hslot.symm.trans hslot₁
    cases hnone.symm.trans hcall
  | @handled _ _ _ _ slot₁ c₁ p hslot₁ hheld hcall₁ hp =>
    cases hslot.symm.trans hslot₁
    cases hcall.symm.trans hcall₁
    have hi : i < s.slots.length := (List.getElem?_eq_some_iff.mp hslot).1
    have hlength : i < (s.slots.set i (handled slot event ok p)).length := by
      rwa [List.length_set]
    rw [List.getElem?_append_left hlength, List.getElem?_set_self hi] at hslot'
    cases hslot'
    rw [handled, List.drop_left] at hupdate
    obtain ⟨op, hop, hop'⟩ := List.mem_filterMap.mp hupdate
    cases op with
    | write u =>
      cases hop'
      exact ⟨p, hp, hop⟩
    | _ => cases hop'

theorem scope_of_scopeKey {t m t' m' : String} (ht : ':' ∉ t.toList) (hm : ':' ∉ m.toList)
    (h : scopeKey t' m' = scopeKey t m) :
    normalizeTenant t' = normalizeTenant t ∧ normalizeModel m' = normalizeModel m := by
  have hcount := congrArg (fun key : String => key.toList.count ':') h
  have htenant : (normalizeTenant t).toList.count ':' = 0 := by
    unfold normalizeTenant
    split
    · decide
    · exact List.count_eq_zero.mpr ht
  have hmodel : (normalizeModel m).toList.count ':' = 0 :=
    List.count_eq_zero.mpr (colon_notMem_normalizeModel hm)
  have hcolons : "::".toList.count ':' = 2 := by decide
  simp only [scopeKey, String.toList_append, List.count_append, htenant, hmodel, hcolons] at hcount
  have hmodel' : ':' ∉ (normalizeModel m').toList := List.count_eq_zero.mp (by omega)
  have hsame : scopeKey t' (normalizeModel m') = scopeKey t m := by
    rw [← h]
    simp [scopeKey]
  have hnormal := scopeKey_inj hmodel' hm hsame
  rwa [normalizeModel_idem] at hnormal

/-- Whatever the streams of a server write, in any order of its steps with
rollbacks, rotations and restarts among them, the client of the stream gets the
weights out that were aggregated as the version of the update. The steps are to
meet `NewRound`. -/
theorem streamed_models_open (d : Deployment F) (start : Start) (s : StreamServer F)
    (client : StreamClient) (publicKey streamSecretKey : Bytes)
    (verifySignature : Bytes → Bytes → Bool) (s' : StreamServer F) (i : ℕ) (slot slot' : Slot)
    (c : StreamGlobalModelCall) (ok : Bool) (event : StreamEvent) (o : StreamOracle)
    (update : GlobalModelUpdate)
    (h : Reaches (streamStep d) (NewRounds d) (initialStreams d start) s)
    (hstep : streamStep d s (.handle i event ok o) = some s')
    (hslot : s.slots[i]? = some slot) (hslot' : s'.slots[i]? = some slot')
    (hcall : slot.call = some c) (hupdate : update ∈ slot'.sent.drop slot.sent.length)
    (hrequest : c.request = client.request publicKey) (hpeer : c.peer.identity = client.identity)
    (hscope : NamesScope (client.request publicKey))
    (hkem : publicKey ≠ [] → Encapsulated d.primitives streamSecretKey o.encapsulated)
    (hverify : ∀ data, verifySignature data (o.signData data) = true) :
    ∃ weights, client.weights d.primitives verifySignature
        (loadSecretFile s.server.world.keyFiles.payload) streamSecretKey update = .ok weights ∧
      signatureOk verifySignature update = true ∧
      AggregatedAs s.server (client.request publicKey).tenantId (client.request publicKey).modelId
        update.modelVersion weights ∧
      .recorded (client.request publicKey).tenantId (client.request publicKey).modelId
        update.roundIndex update.modelVersion weights ∈ s.server.events := by
  have hreach := server_reaches h
  obtain ⟨hr, hg, hlatest⟩ := run_latestRecorded hreach
  have honFile : SecretOnFile s.server := by
    apply hreach.invariant (I := SecretOnFile)
    · exact initial_secretOnFile d start
    · exact fun _ _ _ hold _ hstep => (step_secrets hold hstep).1
  obtain ⟨p, hproceed, hwritten⟩ := handle_writes hstep hslot hslot' hcall hupdate
  have hverifies := written_verifies hverify hproceed hwritten
  have hseals := proceed_seals hproceed hwritten
  rw [hrequest, getLatestGlobalModel_eq] at hseals
  cases hmodel : s.server.world.buffer.latestModels.lookup
      (streamScope (client.request publicKey)) with
  | none =>
    rw [hmodel] at hseals
    exact absurd rfl hseals.nonempty
  | some model =>
    obtain ⟨y, hy, hkey, rfl⟩ := hlatest.latest _ _ hmodel
    rw [hmodel] at hseals
    have hweights := weights_of_seals hscope hpeer honFile.length hkem hverifies hseals
    obtain ⟨htenant, hmodelId⟩ : y.tenantId = (client.request publicKey).tenantId ∧
        y.modelId = (client.request publicKey).modelId := by
      rw [streamScope, scopeKey_normalize] at hkey
      obtain ⟨ht, hm⟩ := scope_of_scopeKey hscope.tenant.2 hscope.model.2 hkey.symm
      obtain ⟨hnormalTenant, hnormalModel⟩ := recorded_normal hg hy
      rw [hnormalTenant, ← (eq_normalizeTenant_iff _).mpr hscope.tenant.1] at ht
      rw [hnormalModel, ← (eq_normalizeModel_iff _).mpr hscope.model.1] at hm
      exact ⟨ht, hm⟩
    have hround : update.roundIndex = y.round := hseals.round
    have hversion : update.modelVersion = y.version := hseals.version
    refine ⟨y.weights, hweights, hverifies, ?_, ?_⟩
    · rw [← htenant, ← hmodelId, hversion]
      exact aggregatedAs_of_recorded hr hg hy
    · rw [← htenant, ← hmodelId, hround, hversion]
      exact mem_recordedModels.mp hy

end

def edgePeer : Peer := ⟨true, testCertIdentity⟩

/-- A client of the demo scope registers, and another time submits one zero. -/
def demoRegistering (cid : String) : List (Action Binary32) :=
  .registerClient ⟨demoTenantId, demoModelId, cid, 100, "", ""⟩ edgePeer 0 :: proceeds 4 0

def demoSubmitting (cid : String) (steps : ℕ) : List (Action Binary32) :=
  .submitWeights { zeroSubmission cid 1 "" "" with
    tenantId := demoTenantId, modelId := demoModelId } edgePeer :: proceeds steps 1

def demoClient : StreamClient := .test "edge-client-1"

def demoRound : List (Action Binary32) :=
  demoRegistering "edge-client-1" ++ demoRegistering "edge-client-2" ++
    demoSubmitting "edge-client-1" 9 ++ demoSubmitting "edge-client-2" 12 ++
    [.rotateAtRestKey (Block.read 32 [1]) admin, .call 0 2]

def demoRun : List (StreamAction Binary32) := demoRound.map .serve ++
  [.arrive 0 (demoClient.request []) edgePeer, .dequeue 0 .request true]

def newRounds (s : StreamServer Binary32) : StreamAction Binary32 → Bool
  | .serve b => newRound s.server b
  | _ => true

theorem newRounds_of_newRounds (s : StreamServer Binary32) (a : StreamAction Binary32)
    (h : newRounds s a = true) : NewRounds standardDeployment s a := by
  rintro b rfl
  exact newRound_of_newRound s.server b h

def demoStreams : StreamServer Binary32 :=
  (execTested (streamStep standardDeployment) newRounds demoRun
    (initialStreams standardDeployment firstStart)).get (by decide +kernel)

def demoHandled : StreamServer Binary32 :=
  (streamStep standardDeployment demoStreams (.handle 0 .request true (calmStream 3))).get
    (by decide +kernel)

def firstSlot (s : StreamServer Binary32) : Slot := (s.slots[0]?).getD listener

def firstCall (s : StreamServer Binary32) : StreamGlobalModelCall := ((firstSlot s).call).getD {}

def firstUpdates (s : StreamServer Binary32) : List GlobalModelUpdate := (firstSlot s).sent

theorem eq_some_getD {α : Type} {x : Option α} (default : α) (h : x.isSome = true) :
    x = some (x.getD default) := by
  obtain ⟨a, rfl⟩ := Option.isSome_iff_exists.mp h
  rfl

/-- The stream writes the model of the first round after the rotation, and the
client opens it. -/
theorem streamed_models_open_demo : (firstUpdates demoHandled).length = 1 ∧
    ∀ update ∈ firstUpdates demoHandled, ∃ weights,
      demoClient.weights standInPrimitives (fun data signature => data == signature)
        (loadSecretFile demoStreams.server.world.keyFiles.payload) [] update = .ok weights ∧
      AggregatedAs demoStreams.server demoTenantId demoModelId update.modelVersion weights := by
  have hreach : Reaches (streamStep standardDeployment) (NewRounds standardDeployment)
      (initialStreams standardDeployment firstStart) demoStreams :=
    execTested_reaches newRounds newRounds_of_newRounds demoRun (Option.some_get _).symm
  have hscope : NamesScope (demoClient.request []) :=
    ⟨by decide +kernel, by decide, by decide⟩
  refine ⟨by decide +kernel, ?_⟩
  intro update hupdate
  have hslot := eq_some_getD (x := demoStreams.slots[0]?) listener (by decide +kernel)
  have hslot' := eq_some_getD (x := demoHandled.slots[0]?) listener (by decide +kernel)
  have hcall := eq_some_getD (x := (firstSlot demoStreams).call) {} (by decide +kernel)
  have hsent : (firstSlot demoStreams).sent.length = 0 := by decide +kernel
  have hnew : update ∈ (firstSlot demoHandled).sent.drop (firstSlot demoStreams).sent.length := by
    rwa [hsent]
  obtain ⟨weights, hweights, -, haggregated, -⟩ := streamed_models_open standardDeployment
    firstStart demoStreams demoClient [] [] (fun data signature => data == signature) demoHandled 0
    (firstSlot demoStreams) (firstSlot demoHandled) (firstCall demoStreams) true .request
    (calmStream 3) update hreach (Option.some_get _).symm hslot hslot' hcall hnew
    (by decide +kernel) (by decide +kernel) hscope (fun h => absurd rfl h)
    (fun data => beq_self_eq_true data)
  exact ⟨weights, hweights, haggregated⟩

end PqFl.StreamedModels
