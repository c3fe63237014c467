import PqFl.KeyVersions
import PqFl.PythonClient

/-!
# The payloads of the clients

What `test_client.cpp`, `worker_demo_client.cpp` and `train.py` make of an offer
of training work: a submission which is sealed for the server. Its key comes
from the payload secret, or from a secret which is encapsulated to the server.
Rotations and restarts go on meanwhile, and the server opens it all the same.
-/

set_option autoImplicit false

namespace PqFl.ClientPayloads
open PqFl.Identifiers PqFl.Crypto PqFl.Aggregation PqFl.Buffer PqFl.Services PqFl.Process
open PqFl.SessionContexts PqFl.PythonClient PqFl.RetainedKeys PqFl.KeyVersions PqFl.Runs
open PqFl.Configuration PqFl.Floats

/-- The fields of `TrainingConfig` and of `WorkerTaskLeaseResponse` which a
client goes by. -/
structure TrainingOffer where
  roundIndex : ℤ := 0
  baseModelVersion : ℤ := 0
  jobId : String := ""
  assignmentId : String := ""
  payloadKemPublicKey : Bytes := []

/-- What a client draws; there is no ciphertext and shared secret where
`EncapsulateKem` fails. -/
structure PayloadDraw where
  iv : Block 12
  encapsulated : Option (Bytes × Bytes)

/-- `LoadSecretFile`, which returns nothing for a missing file. -/
def loadSecretFile (file : Option Key) : Bytes := (file.map (·.1)).getD []

section
variable {F : Type}
variable {d : Deployment F} {s s' : Server F} {a : Action F}

def SecretOnFile (s : Server F) : Prop :=
  loadSecretFile s.world.keyFiles.payload = s.world.crypto.payloadSecret ∧
    s.world.keyFiles.payload.isSome = true

theorem SecretOnFile.length (h : SecretOnFile s) :
    (loadSecretFile s.world.keyFiles.payload).length = 32 ∧
      s.world.crypto.payloadSecret = loadSecretFile s.world.keyFiles.payload := by
  obtain ⟨key, hkey⟩ := Option.isSome_iff_exists.mp h.2
  refine ⟨?_, h.1.symm⟩
  rw [hkey]
  exact key.2

theorem initial_secretOnFile (d : Deployment F) (start : Start) :
    SecretOnFile (initial d start) := ⟨rfl, rfl⟩

variable [FloatArith F]

def encryptPayload (P : Primitives) (key : Key) (iv : Block 12) (weights : List F)
    (req : SubmitWeightsRequest) : SubmitWeightsRequest :=
  let sealed := P.gcmSeal key iv (floatBytes weights)
  { req with
    encryptedWeights := sealed.1
    iv := iv.1
    authTag := sealed.2.1 }

/-- The key agreement and the encryption, which all clients write out; they
differ in how a key is derived from a secret. -/
def sealPayload (P : Primitives) (keyFrom : Bytes → Except String Key)
    (payloadSecret publicKey : Bytes) (draw : PayloadDraw) (weights : List F)
    (req : SubmitWeightsRequest) : Except String SubmitWeightsRequest :=
  if publicKey ≠ [] then
    match draw.encapsulated with
    | none => .error "ML-KEM-1024 encapsulation failed"
    | some (kemCiphertext, sharedSecret) => (keyFrom sharedSecret).map (fun sessionKey =>
        encryptPayload P sessionKey draw.iv weights
          { req with kemCiphertext := kemCiphertext, keyAgreement := "ml-kem-1024" })
  else (keyFrom payloadSecret).map (fun sessionKey =>
    encryptPayload P sessionKey draw.iv weights { req with keyAgreement := "shared-secret" })

def testCertIdentity : String := "pqfl-edge-client"

def workerCertIdentity : String := "pqfl-worker"

def demoTenantId : String := "demo-tenant"

def demoModelId : String := "demo-model"

/-- `key_context` of the C++ clients. -/
def keyContextOf (identity : String) (req : SubmitWeightsRequest) : List Bytes :=
  [utf8 identity, utf8 req.tenantId, utf8 req.modelId, utf8 req.clientId,
    utf8 (toString req.roundIndex), utf8 "submit", req.clientNonce]

def demoRequest (clientId clientNonce : String) (roundIndex : ℤ) (offer : TrainingOffer) :
    SubmitWeightsRequest where
  tenantId := demoTenantId
  modelId := demoModelId
  clientId := clientId
  roundIndex := roundIndex
  localDatasetSize := 100
  encryptedWeights := []
  iv := []
  authTag := []
  clientNonce := utf8 clientNonce
  kemCiphertext := []
  keyAgreement := ""
  baseModelVersion := offer.baseModelVersion
  jobId := offer.jobId
  assignmentId := offer.assignmentId

/-- The round in `SendWeights`, which does not ask whether it was assigned. -/
def sentRound (config : TrainingOffer) : ℤ := if config.roundIndex > 0 then config.roundIndex else 1

/-- `FLTestClient::SendWeights`. -/
def sendWeights (P : Primitives) (payloadSecret : Bytes) (cid : String) (weights : List F)
    (config : TrainingOffer) (draw : PayloadDraw) : Except String SubmitWeightsRequest :=
  let req := demoRequest cid ("nonce-" ++ cid ++ "-round-" ++ toString (sentRound config))
    (sentRound config) config
  sealPayload P
    (fun secret => deriveSessionKeyWithSecret P secret (keyContextOf testCertIdentity req))
    payloadSecret config.payloadKemPublicKey draw weights req

/-- `WorkerDemoClient::SubmitWeights`. -/
def submitWeights (P : Primitives) (payloadSecret : Bytes) (workerId trainerClientId : String)
    (weights : List F) (task : TrainingOffer) (draw : PayloadDraw) :
    Except String SubmitWeightsRequest :=
  let req := demoRequest trainerClientId
    ("worker-demo-" ++ workerId ++ "-round-" ++ toString task.roundIndex) task.roundIndex task
  sealPayload P
    (fun secret => deriveSessionKeyWithSecret P secret (keyContextOf workerCertIdentity req))
    payloadSecret task.payloadKemPublicKey draw weights req

/-- The request in `run`, after the training. -/
def runRequest (args : Args) (datasetSize : ℤ) (config : TrainingOffer) : SubmitWeightsRequest :=
  weightPayload args config.roundIndex (runNonce args config.roundIndex) {
    tenantId := ""
    modelId := ""
    clientId := ""
    roundIndex := 0
    localDatasetSize := datasetSize
    encryptedWeights := []
    iv := []
    authTag := []
    clientNonce := []
    kemCiphertext := []
    keyAgreement := ""
    baseModelVersion := config.baseModelVersion
    jobId := config.jobId
    assignmentId := config.assignmentId }

/-- `run` of `train.py` from its nonce on. -/
def run (P : Primitives) (secret : Bytes) (args : Args) (datasetSize : ℤ) (weights : List F)
    (config : TrainingOffer) (draw : PayloadDraw) : Except String SubmitWeightsRequest :=
  sealPayload P
    (fun secret => .ok (PythonClient.deriveSessionKey P secret
      (keyContext args config.roundIndex (runNonce args config.roundIndex))))
    secret config.payloadKemPublicKey draw weights (runRequest args datasetSize config)

/-- The ciphertext of AES-GCM is as long as its plaintext. -/
def KeepsLength (P : Primitives) : Prop :=
  ∀ key iv plaintext, (P.gcmSeal key iv plaintext).1.length = plaintext.length

/-- ML-KEM gives its holder back what was encapsulated to its key. -/
structure Encapsulated (P : Primitives) (kemSecretKey : Bytes)
    (encapsulated : Option (Bytes × Bytes)) : Prop where
  nonempty : 0 < P.kemCiphertextLength
  length : ∀ x ∈ encapsulated, x.1.length = P.kemCiphertextLength
  secret : ∀ x ∈ encapsulated, x.2.length = 32
  decaps : ∀ x ∈ encapsulated, P.kemDecaps kemSecretKey x.1 = some x.2

structure Agrees (P : Primitives) (e : CryptoEngine) (payloadSecret publicKey : Bytes)
    (draw : PayloadDraw) : Prop where
  payload : publicKey = [] → payloadSecret.length = 32 ∧ e.payloadSecret = payloadSecret
  kem : publicKey ≠ [] → Encapsulated P e.kemSecretKey draw.encapsulated

def DerivesSubmitKey (P : Primitives) (keyFrom : Bytes → Except String Key)
    (req : SubmitWeightsRequest) (peer : Peer) : Prop :=
  ∀ secret : Bytes, secret.length = 32 →
    keyFrom secret = .ok (P.hmacSha256 secret (macInput (submitContext req peer)))

@[simp] theorem encryptPayload_kemCiphertext (P : Primitives) (key : Key) (iv : Block 12)
    (weights : List F) (req : SubmitWeightsRequest) :
    (encryptPayload P key iv weights req).kemCiphertext = req.kemCiphertext := rfl

@[simp] theorem submitContext_encryptPayload (P : Primitives) (key : Key) (iv : Block 12)
    (weights : List F) (req : SubmitWeightsRequest) (peer : Peer) :
    submitContext (encryptPayload P key iv weights req) peer = submitContext req peer := rfl

theorem decrypt_encryptPayload {P : Primitives} {e : CryptoEngine} {key : Key} {iv : Block 12}
    {weights : List F} {req : SubmitWeightsRequest} {peer : Peer}
    (hkey : deriveSubmitKey P e (encryptPayload P key iv weights req) peer = .ok key) :
    decryptSubmission P e (encryptPayload P key iv weights req) peer = .ok weights := by
  have hopen : decryptWithKey P key (P.gcmSeal key iv (floatBytes weights)).1
      (Block.read 12 iv.1) (Block.read 16 (P.gcmSeal key iv (floatBytes weights)).2.1) =
        .ok (floatBytes weights) := by
    rw [Block.read_self, Block.read_self, decryptWithKey, P.gcmOpen_gcmSeal]
  have hlength : (floatBytes weights).length % 4 = 0 := by
    rw [floatBytes_length]
    omega
  unfold decryptSubmission
  rw [hkey]
  simp only [Except.bind, encryptPayload, hopen, hlength, ne_eq, not_true_eq_false, if_false,
    bytesFloats_floatBytes]

theorem sealPayload_opens {P : Primitives} {e : CryptoEngine}
    {keyFrom : Bytes → Except String Key} {payloadSecret publicKey : Bytes} {draw : PayloadDraw}
    {weights : List F} {req sealed : SubmitWeightsRequest} {peer : Peer}
    (hkem : req.kemCiphertext = []) (hderives : DerivesSubmitKey P keyFrom req peer)
    (hagrees : Agrees P e payloadSecret publicKey draw)
    (h : sealPayload P keyFrom payloadSecret publicKey draw weights req = .ok sealed) :
    decryptSubmission P e sealed peer = .ok weights := by
  unfold sealPayload at h
  by_cases hpublic : publicKey = []
  · obtain ⟨hlength, hsecret⟩ := hagrees.payload hpublic
    rw [if_neg (by simpa using hpublic), hderives payloadSecret hlength] at h
    cases h
    apply decrypt_encryptPayload
    rw [deriveSubmitKey_context, encryptPayload_kemCiphertext, if_pos hkem,
      submitContext_encryptPayload, Crypto.deriveSessionKey, hsecret,
      deriveSessionKeyWithSecret_macInput P _ _ hlength]
    rfl
  · have hencapsulated := hagrees.kem hpublic
    rw [if_pos hpublic] at h
    cases hdraw : draw.encapsulated with
    | none =>
      rw [hdraw] at h
      cases h
    | some x =>
      have hx : x ∈ draw.encapsulated := by rw [hdraw]; rfl
      have hlength := hencapsulated.length x hx
      have hnonempty : x.1 ≠ [] := by
        intro hnil
        rw [hnil] at hlength
        exact absurd hlength (ne_of_lt hencapsulated.nonempty)
      rw [hdraw] at h
      simp only [hderives x.2 (hencapsulated.secret x hx)] at h
      cases h
      apply decrypt_encryptPayload
      rw [deriveSubmitKey_context, encryptPayload_kemCiphertext, if_neg hnonempty,
        submitContext_encryptPayload, deriveKemSessionKey]
      simp only [hlength, ne_eq, not_true_eq_false, if_false, hencapsulated.decaps x hx]
      rw [deriveSessionKeyWithSecret_macInput P _ _ (hencapsulated.secret x hx)]
      rfl

theorem sealPayload_checked {P : Primitives} {keyFrom : Bytes → Except String Key}
    {payloadSecret publicKey : Bytes} {draw : PayloadDraw} {weights : List F}
    {req sealed : SubmitWeightsRequest} {peer : Peer} (hkeeps : KeepsLength P)
    (hweights : weights ≠ []) (hpeer : peer.authenticated = true)
    (hids : validateFederatedRequestIds req.tenantId req.modelId req.clientId = "")
    (hround : 1 ≤ req.roundIndex) (hsize : 1 ≤ req.localDatasetSize)
    (hkem : publicKey ≠ [] → ∀ x ∈ draw.encapsulated, x.1 ≠ [])
    (h : sealPayload P keyFrom payloadSecret publicKey draw weights req = .ok sealed) :
    checkSubmitWeights sealed peer = "" := by
  have hsealed : ∀ key iv, (P.gcmSeal key iv (floatBytes weights)).1 ≠ [] := by
    intro key iv hnil
    have hlength := hkeeps key iv (floatBytes weights)
    rw [hnil, floatBytes_length] at hlength
    have hpos := List.length_pos_of_ne_nil hweights
    simp only [List.length_nil] at hlength
    omega
  have hround' : ¬ req.roundIndex ≤ 0 := by omega
  have hsize' : ¬ req.localDatasetSize ≤ 0 := by omega
  unfold sealPayload at h
  by_cases hpublic : publicKey = []
  · rw [if_neg (by simpa using hpublic)] at h
    obtain ⟨key, -, rfl⟩ := Streams.ok_of_map h
    have hiv := draw.iv.2
    have htag := (P.gcmSeal key draw.iv (floatBytes weights)).2.2
    simp [checkSubmitWeights, encryptPayload, hids, hround', hsize', hsealed, hiv, htag, hpeer]
  · rw [if_pos hpublic] at h
    cases hdraw : draw.encapsulated with
    | none =>
      rw [hdraw] at h
      cases h
    | some x =>
      rw [hdraw] at h
      obtain ⟨key, -, rfl⟩ := Streams.ok_of_map h
      have hnonempty := hkem hpublic x (by rw [hdraw]; rfl)
      have hiv := draw.iv.2
      have htag := (P.gcmSeal key draw.iv (floatBytes weights)).2.2
      simp [checkSubmitWeights, encryptPayload, hids, hround', hsize', hsealed, hiv, htag, hpeer,
        hnonempty]

/-- Where every character takes one byte, the lengths of `train.py` are the
lengths of the server. -/
theorem toMac_eq_macInput {parts : List String} (h : ∀ part ∈ parts, SingleBytes part) :
    utf8 (toMac parts) = macInput (parts.map utf8) := by
  rw [utf8_toMac, macInput_eq, List.append_cancel_left_eq]
  induction parts with
  | nil => rfl
  | cons part parts ih =>
    have hpart := textCode_singleBytes (h part List.mem_cons_self)
    have hparts := ih (fun x hx => h x (List.mem_cons_of_mem _ hx))
    rw [List.flatMap_cons, List.map_cons, List.flatMap_cons, hpart, hparts]

theorem keyContextOf_derives {P : Primitives} {identity : String} {req : SubmitWeightsRequest}
    {peer : Peer} (htenant : req.tenantId ≠ "") (hmodel : req.modelId ≠ "")
    (hnonce : req.clientNonce ≠ []) (hpeer : peer.identity = identity) :
    DerivesSubmitKey P (fun secret => deriveSessionKeyWithSecret P secret
      (keyContextOf identity req)) req peer := by
  intro secret hlength
  have hcontext : keyContextOf identity req = submitContext req peer := by
    rw [submitContext, RpcContext.parts, if_neg hnonce, hpeer,
      ← (eq_normalizeTenant_iff req.tenantId).mpr htenant,
      ← (eq_normalizeModel_iff req.modelId).mpr hmodel]
    rfl
  dsimp only
  rw [deriveSessionKeyWithSecret_macInput P _ _ hlength, hcontext]

theorem runRequest_derives {P : Primitives} {args : Args} {datasetSize : ℤ}
    {config : TrainingOffer} {peer : Peer}
    (hids : validateFederatedRequestIds args.tenant args.model args.clientId = "")
    (htenant : args.tenant ≠ "") (hmodel : args.model ≠ "")
    (hpeer : peer.identity = PythonClient.peerIdentity) :
    DerivesSubmitKey P (fun secret => .ok (PythonClient.deriveSessionKey P secret
      (keyContext args config.roundIndex (runNonce args config.roundIndex))))
      (runRequest args datasetSize config) peer := by
  obtain ⟨⟨-, htallowed⟩, ⟨-, hmallowed⟩, -, -, hcallowed⟩ :=
    validateFederatedRequestIds_eq_empty.mp hids
  obtain ⟨hnonce, hnonceBytes⟩ := runNonce_singleBytes args config.roundIndex hcallowed
  intro secret hlength
  have hsingle : ∀ part ∈ keyContext args config.roundIndex (runNonce args config.roundIndex),
      SingleBytes part := by
    intro part hpart
    simp only [keyContext, List.mem_cons, List.not_mem_nil, or_false] at hpart
    rcases hpart with rfl | rfl | rfl | rfl | rfl | rfl | rfl
    · decide
    · exact singleBytes_of_allowed htallowed
    · exact singleBytes_of_allowed hmallowed
    · exact singleBytes_of_allowed hcallowed
    · exact singleBytes_of_allowed (toString_allowed _)
    · decide
    · exact hnonceBytes
  have hnonempty : utf8 (runNonce args config.roundIndex) ≠ [] :=
    fun hnil => hnonce (utf8_injective hnil)
  have hcontext : (keyContext args config.roundIndex (runNonce args config.roundIndex)).map utf8 =
      submitContext (runRequest args datasetSize config) peer := by
    rw [runRequest, submitContext_weightPayload, if_neg hnonempty, hpeer,
      ← (eq_normalizeTenant_iff args.tenant).mpr htenant,
      ← (eq_normalizeModel_iff args.model).mpr hmodel]
    rfl
  dsimp only [PythonClient.deriveSessionKey]
  rw [toMac_eq_macInput hsingle, hcontext]

/-- A payload of one of the clients, with the identity in its certificate and
the KEM key in its offer. -/
inductive Seals (P : Primitives) (payloadSecret : Bytes) (draw : PayloadDraw) (weights : List F) :
    String → Bytes → SubmitWeightsRequest → Prop
  | testClient {cid : String} {config : TrainingOffer} {req : SubmitWeightsRequest}
      (hids : validateFederatedRequestIds demoTenantId demoModelId cid = "")
      (h : sendWeights P payloadSecret cid weights config draw = .ok req) :
      Seals P payloadSecret draw weights testCertIdentity config.payloadKemPublicKey req
  | workerDemoClient {workerId trainerClientId : String} {task : TrainingOffer}
      {req : SubmitWeightsRequest}
      (hids : validateFederatedRequestIds demoTenantId demoModelId trainerClientId = "")
      (hround : 1 ≤ task.roundIndex)
      (h : submitWeights P payloadSecret workerId trainerClientId weights task draw = .ok req) :
      Seals P payloadSecret draw weights workerCertIdentity task.payloadKemPublicKey req
  | pythonClient {args : Args} {datasetSize : ℤ} {config : TrainingOffer}
      {req : SubmitWeightsRequest}
      (hids : validateFederatedRequestIds args.tenant args.model args.clientId = "")
      (htenant : args.tenant ≠ "") (hmodel : args.model ≠ "") (hround : 1 ≤ config.roundIndex)
      (hsize : 1 ≤ datasetSize)
      (h : run P payloadSecret args datasetSize weights config draw = .ok req) :
      Seals P payloadSecret draw weights PythonClient.peerIdentity config.payloadKemPublicKey req

theorem utf8_ne_nil {s t : String} (h : s ≠ "") : utf8 (s ++ t) ≠ [] := by
  intro hnil
  have hempty : s ++ t = "" := utf8_injective hnil
  exact h (String.append_eq_empty_iff.mp hempty).1

/-- What all of them share: a request that passes the checks, and a key which
the server derives as well. -/
theorem Seals.sealed {P : Primitives} {payloadSecret publicKey : Bytes} {draw : PayloadDraw}
    {weights : List F} {req : SubmitWeightsRequest} {peer : Peer}
    (h : Seals P payloadSecret draw weights peer.identity publicKey req) :
    ∃ keyFrom base, sealPayload P keyFrom payloadSecret publicKey draw weights base = .ok req ∧
      DerivesSubmitKey P keyFrom base peer ∧ base.kemCiphertext = [] ∧
      validateFederatedRequestIds base.tenantId base.modelId base.clientId = "" ∧
      1 ≤ base.roundIndex ∧ 1 ≤ base.localDatasetSize := by
  obtain ⟨authenticated, identity⟩ := peer
  have hdemo : demoTenantId ≠ "" ∧ demoModelId ≠ "" := by decide
  cases h with
  | @testClient cid config _ hids h =>
    refine ⟨_, _, h, keyContextOf_derives hdemo.1 hdemo.2 ?_ rfl, rfl, hids, ?_, ?_⟩
    · simp only [demoRequest, String.append_assoc]
      exact utf8_ne_nil (by decide)
    · simp only [demoRequest, sentRound]
      split <;> omega
    · exact (by decide : (1 : ℤ) ≤ 100)
  | @workerDemoClient workerId trainerClientId task _ hids hround h =>
    refine ⟨_, _, h, keyContextOf_derives hdemo.1 hdemo.2 ?_ rfl, rfl, hids, hround, ?_⟩
    · simp only [demoRequest, String.append_assoc]
      exact utf8_ne_nil (by decide)
    · exact (by decide : (1 : ℤ) ≤ 100)
  | pythonClient hids htenant hmodel hround hsize h =>
    exact ⟨_, _, h, runRequest_derives hids htenant hmodel rfl, rfl, hids, hround, hsize⟩

theorem step_secrets (hs : SecretOnFile s) (h : Process.step d s a = some s') :
    SecretOnFile s' ∧ s'.world.crypto.payloadSecret = s.world.crypto.payloadSecret ∧
    ((∀ start, a ≠ .restart start) →
      s'.world.crypto.kemSecretKey = s.world.crypto.kemSecretKey) := by
  cases a with
  | rotateAtRestKey keyBytes peer =>
    simp only [Process.step, startRotateAtRestKey] at h
    split at h
    · cases h
      exact ⟨hs, rfl, fun _ => rfl⟩
    · obtain ⟨rotated, hrotated, rfl⟩ := Option.map_eq_some_iff.mp h
      have heq := (rotateMasterKey_eq (s := (s.world.crypto, s.world.keyFiles)) hrotated).2
      subst heq
      exact ⟨hs, rfl, fun _ => rfl⟩
  | restart start =>
    obtain ⟨w, hw, rfl⟩ := Option.map_eq_some_iff.mp h
    obtain ⟨keys, hkeys, rfl⟩ := Option.map_eq_some_iff.mp hw
    obtain ⟨key, hkey⟩ := Option.isSome_iff_exists.mp hs.2
    have hloaded : keys.1.payloadSecret = key.1 ∧ keys.2.payload = some key := by
      unfold loadOrGenerateKey at hkeys
      rw [hkey] at hkeys
      simp only [Option.getD_some] at hkeys
      split at hkeys
      · obtain ⟨loaded, -, hrest⟩ := Option.bind_eq_some_iff.mp hkeys
        obtain ⟨active, -, rfl⟩ := Option.map_eq_some_iff.mp hrest
        exact ⟨rfl, rfl⟩
      · cases hkeys
        exact ⟨rfl, rfl⟩
      · cases hkeys
        exact ⟨rfl, rfl⟩
    have hsame : s.world.crypto.payloadSecret = key.1 := by
      rw [← hs.1, hkey]
      rfl
    refine ⟨⟨?_, ?_⟩, ?_, fun hnot => absurd rfl (hnot start)⟩
    · simp only [World.after]
      rw [hloaded.1, hloaded.2]
      rfl
    · simp only [World.after]
      rw [hloaded.2]
      rfl
    · exact hloaded.1.trans hsame.symm
  | _ =>
    obtain ⟨hcrypto, hfiles⟩ := step_sameKeys h (by simp) (by simp)
    rw [SecretOnFile, hcrypto, hfiles]
    exact ⟨hs, rfl, fun _ => rfl⟩

/-- An offer with a KEM key is good until the next start. -/
def OfferHolds (publicKey : Bytes) (_ : Server F) (a : Action F) : Prop :=
  publicKey = [] ∨ ∀ start, a ≠ .restart start

theorem run_agrees {P : Primitives} {publicKey : Bytes} {draw : PayloadDraw}
    (hs : SecretOnFile s)
    (hkem : publicKey ≠ [] → Encapsulated P s.world.crypto.kemSecretKey draw.encapsulated)
    (h : Reaches (Process.step d) (OfferHolds publicKey) s s') :
    Agrees P s'.world.crypto (loadSecretFile s.world.keyFiles.payload) publicKey draw := by
  have hkept : SecretOnFile s' ∧
      s'.world.crypto.payloadSecret = s.world.crypto.payloadSecret ∧
      (publicKey ≠ [] → s'.world.crypto.kemSecretKey = s.world.crypto.kemSecretKey) := by
    induction h with
    | start => exact ⟨hs, rfl, fun _ => rfl⟩
    | next _ ha hstep ih =>
      obtain ⟨honFile, hsecret, hsameKem⟩ := step_secrets ih.1 hstep
      refine ⟨honFile, hsecret.trans ih.2.1, ?_⟩
      intro hpublic
      rw [hsameKem (ha.resolve_left hpublic), ih.2.2 hpublic]
  constructor
  · intro _
    rw [hkept.2.1]
    exact hs.length
  · intro hpublic
    rw [hkept.2.2 hpublic]
    exact hkem hpublic

/-- A payload that a client sealed for the server of some state passes the
checks in every later state, and opens to the weights of the client. -/
theorem payloads_open (d : Deployment F) (start : Start) (s s' : Server F) (publicKey : Bytes)
    (draw : PayloadDraw) (weights : List F) (req : SubmitWeightsRequest) (peer : Peer)
    (hs : Reaches (Process.step d) Free (initial d start) s)
    (hlater : Reaches (Process.step d) (OfferHolds publicKey) s s')
    (hseals : Seals d.primitives (loadSecretFile s.world.keyFiles.payload) draw weights
      peer.identity publicKey req)
    (hkem : publicKey ≠ [] → Encapsulated d.primitives s.world.crypto.kemSecretKey
      draw.encapsulated)
    (hkeeps : KeepsLength d.primitives) (hweights : weights ≠ [])
    (hpeer : peer.authenticated = true) :
    checkSubmitWeights req peer = "" ∧
      decryptSubmission d.primitives s'.world.crypto req peer = .ok weights := by
  have honFile : SecretOnFile s := by
    apply hs.invariant (I := SecretOnFile)
    · exact initial_secretOnFile d start
    · exact fun _ _ _ hold _ hstep => (step_secrets hold hstep).1
  obtain ⟨keyFrom, base, hsealed, hderives, hnoKem, hids, hround, hsize⟩ := hseals.sealed
  constructor
  · apply sealPayload_checked hkeeps hweights hpeer hids hround hsize _ hsealed
    intro hpublic x hx hnil
    have hlength := (hkem hpublic).length x hx
    rw [hnil] at hlength
    exact absurd hlength (ne_of_lt (hkem hpublic).nonempty)
  · exact sealPayload_opens hnoKem hderives (run_agrees honFile hkem hlater) hsealed

end

/-- The stand-in with a KEM whose ciphertext shows the shared secret. -/
def openKem : Primitives :=
  { standInPrimitives with kemDecaps := fun _ kemCiphertext =>
      if kemCiphertext.length = 1568 then some (kemCiphertext.take 32) else none }

def openKemDeployment : Deployment Binary32 := ⟨defaultConfig.toConfig, openKem⟩

def openKemDraw : PayloadDraw :=
  ⟨Block.read 12 [], some (List.replicate 1568 7, List.replicate 32 7)⟩

def twoWeights : List Binary32 := [Arith.ofInt 1, Arith.ofInt 2]

def rotatedRestarted : Server Binary32 :=
  (exec (Process.step standardDeployment)
    [.rotateAtRestKey (Block.read 32 [1]) admin, .restart firstStart]
    (initial standardDeployment firstStart)).get (by decide +kernel)

def rotatedKem : Server Binary32 :=
  (exec (Process.step openKemDeployment) [.rotateAtRestKey (Block.read 32 [1]) admin]
    (initial openKemDeployment firstStart)).get (by decide +kernel)

/-- The test client seals with the payload secret before a rotation and a
restart, `train.py` with a KEM secret before a rotation. -/
theorem payloads_open_rotated :
    (∃ req, sendWeights standInPrimitives zeroKey.1 "edge-client-1" twoWeights {}
        ⟨Block.read 12 [], none⟩ = .ok req ∧
      decryptSubmission standInPrimitives rotatedRestarted.world.crypto req
        ⟨true, testCertIdentity⟩ = .ok twoWeights) ∧
    ∃ req, run openKem zeroKey.1 demoArgs 15000 twoWeights
        { roundIndex := 1, payloadKemPublicKey := [1] } openKemDraw = .ok req ∧
      decryptSubmission openKem rotatedKem.world.crypto req
        ⟨true, PythonClient.peerIdentity⟩ = .ok twoWeights := by
  have hkeeps : KeepsLength standInPrimitives := fun _ _ _ => rfl
  have hkeeps' : KeepsLength openKem := fun _ _ _ => rfl
  have hrestarted : Reaches (Process.step standardDeployment) (OfferHolds [])
      (initial standardDeployment firstStart) rotatedRestarted :=
    exec_reaches_of _ (fun _ _ _ => .inl rfl) (Option.some_get _).symm
  have hrotated : Reaches (Process.step openKemDeployment) (OfferHolds [1])
      (initial openKemDeployment firstStart) rotatedKem :=
    exec_reaches_of [.rotateAtRestKey (Block.read 32 [1]) admin] (by simp [OfferHolds])
      (Option.some_get _).symm
  have hencapsulated : Encapsulated openKem [] openKemDraw.encapsulated := by
    constructor
    · exact (by decide : 0 < 1568)
    · rintro x ⟨⟩
      exact List.length_replicate
    · rintro x ⟨⟩
      exact List.length_replicate
    · rintro x ⟨⟩
      dsimp only [openKem]
      rw [List.length_replicate, if_pos rfl, List.take_replicate]
      rfl
  obtain ⟨req, hreq⟩ : ∃ req, sendWeights standInPrimitives zeroKey.1 "edge-client-1" twoWeights {}
      ⟨Block.read 12 [], none⟩ = .ok req := ⟨_, rfl⟩
  obtain ⟨req', hreq'⟩ : ∃ req, run openKem zeroKey.1 demoArgs 15000 twoWeights
      { roundIndex := 1, payloadKemPublicKey := [1] } openKemDraw = .ok req := ⟨_, rfl⟩
  constructor
  · have hseals := Seals.testClient (by decide +kernel) hreq
    exact ⟨req, hreq, (payloads_open standardDeployment firstStart _ _ _ _ _ req
      ⟨true, testCertIdentity⟩ .start hrestarted hseals (fun h => absurd rfl h) hkeeps (by decide)
      rfl).2⟩
  · have hseals := Seals.pythonClient (by decide +kernel) (by decide) (by decide) (by decide)
      (by decide) hreq'
    exact ⟨req', hreq', (payloads_open openKemDeployment firstStart _ _ _ _ _ req'
      ⟨true, PythonClient.peerIdentity⟩ .start hrotated hseals (fun _ => hencapsulated) hkeeps'
      (by decide) rfl).2⟩

end PqFl.ClientPayloads
