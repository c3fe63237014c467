import PqFl.GlobalModelStream
import PqFl.SessionContexts

/-!
# The session keys of the Python client

`train.py` builds the contexts of its session keys by itself, from the raw
arguments and with lengths counted in characters; the server normalizes the
scope, counts bytes and leaves an empty nonce out.
-/

set_option autoImplicit false

namespace PqFl.PythonClient
open PqFl.Identifiers PqFl.SeparatedKeys PqFl.Codes PqFl.Crypto PqFl.Services PqFl.SessionContexts
open PqFl.Streams (ModelRequest streamContext)

/-- `PEER_IDENTITY`. -/
def peerIdentity : String := "pqfl-edge-client"

structure Args where
  clientId : String
  tenant : String
  model : String
  deriving DecidableEq

/-- The text which `derive_session_key` puts together; `len` counts characters. -/
def toMac (contextParts : List String) : String :=
  contextParts.foldl (fun text part => text ++ ("|" ++ toString part.length ++ ":" ++ part))
    "pqfl-session-v3"

def deriveSessionKey (P : Primitives) (secret : Bytes) (contextParts : List String) : Key :=
  P.hmacSha256 secret (utf8 (toMac contextParts))

/-- The context in `run`. -/
def keyContext (args : Args) (roundIndex : ℤ) (nonce : String) : List String :=
  [peerIdentity, args.tenant, args.model, args.clientId, toString roundIndex, "submit", nonce]

/-- The context in `fetch_base_model`. -/
def streamKeyContext (args : Args) : List String :=
  [peerIdentity, args.tenant, args.model, args.clientId, "stream"]

/-- The request in `run`, with the fields that the key depends on. -/
def weightPayload (args : Args) (roundIndex : ℤ) (nonce : String) (payload : SubmitWeightsRequest) :
    SubmitWeightsRequest :=
  { payload with
    clientId := args.clientId
    roundIndex := roundIndex
    tenantId := args.tenant
    modelId := args.model
    clientNonce := utf8 nonce }

/-- The request in `fetch_base_model`, with the fields that the key depends on. -/
def modelRequest (args : Args) (request : ModelRequest) : ModelRequest :=
  { request with clientId := args.clientId, tenantId := args.tenant, modelId := args.model }

/-- The context in `SubmitWeightsCall::DeriveSessionKey`. -/
def submitContext (q : SubmitWeightsRequest) (peer : Peer) : List Bytes :=
  (RpcContext.submit peer.identity (normalizeTenant q.tenantId) (normalizeModel q.modelId) q.clientId
    q.roundIndex q.clientNonce).parts

theorem deriveSubmitKey_context (P : Primitives) (e : CryptoEngine) (q : SubmitWeightsRequest)
    (peer : Peer) : deriveSubmitKey P e q peer =
      if q.kemCiphertext = [] then Crypto.deriveSessionKey P e (submitContext q peer)
      else deriveKemSessionKey P e (submitContext q peer) q.kemCiphertext := rfl

theorem utf8_append (s t : String) : utf8 (s ++ t) = utf8 s ++ utf8 t := by
  rw [utf8_flatMap, utf8_flatMap, utf8_flatMap, String.toList_append, List.flatMap_append]

theorem utf8_length (s : String) : (utf8 s).length = s.utf8ByteSize := by
  rw [utf8, Array.length_toList]
  rfl

/-- A part behind its length in bytes, as the server codes it. -/
def partCode (part : Bytes) : Bytes :=
  utf8 "|" ++ utf8 (toString part.length) ++ utf8 ":" ++ part

/-- A part behind its length in characters, as the client codes it. -/
def textCode (part : String) : Bytes := utf8 ("|" ++ toString part.length ++ ":" ++ part)

theorem macInput_eq (parts : List Bytes) :
    macInput parts = utf8 "pqfl-session-v3" ++ parts.flatMap partCode := rfl

theorem utf8_toMac (parts : List String) :
    utf8 (toMac parts) = utf8 "pqfl-session-v3" ++ parts.flatMap textCode := by
  have hfold : ∀ start : String, utf8 (parts.foldl (fun text part =>
      text ++ ("|" ++ toString part.length ++ ":" ++ part)) start) =
        utf8 start ++ parts.flatMap textCode := by
    induction parts with
    | nil => intro start; simp
    | cons part parts ih =>
      intro start
      rw [List.foldl_cons, ih, utf8_append, List.flatMap_cons, List.append_assoc]
      rfl
  exact hfold _

def SingleBytes (s : String) : Prop := s.length = s.utf8ByteSize

instance (s : String) : Decidable (SingleBytes s) := inferInstanceAs (Decidable (_ = _))

theorem textCode_eq (s : String) :
    textCode s = utf8 "|" ++ utf8 (toString s.length) ++ utf8 ":" ++ utf8 s := by
  rw [textCode, utf8_append, utf8_append, utf8_append]

theorem textCode_eq_partCode {s : String} : textCode s = partCode (utf8 s) ↔ SingleBytes s := by
  rw [textCode_eq, partCode, utf8_length, SingleBytes]
  constructor
  · intro h
    have hlength := List.append_cancel_left (List.append_cancel_right (List.append_cancel_right h))
    exact nat_repr_inj (utf8_injective hlength)
  · intro h
    rw [h]

theorem singleBytes_of_allowed {s : String} (h : s.toList.all isAllowedIdentifierChar = true) :
    SingleBytes s := by
  have hsize := utf8ByteSize_of_allowed h
  rw [String.ofList_toList, String.length_toList] at hsize
  exact hsize.symm

theorem toString_allowed (z : ℤ) : (toString z).toList.all isAllowedIdentifierChar = true := by
  rw [List.all_eq_true]
  intro ch hch
  rcases decimal_of_mem_toString hch with hdigit | rfl
  · simp [isAllowedIdentifierChar, Char.isAlphanum, hdigit]
  · decide

theorem textCode_singleBytes {s : String} (h : SingleBytes s) : textCode s = partCode (utf8 s) :=
  textCode_eq_partCode.mpr h

theorem partCode_inj {part part' : Bytes} {u v : List UInt8}
    (h : partCode part ++ u = partCode part' ++ v) : part = part' ∧ u = v :=
  partCode_selfDelimiting h

theorem textCode_append_iff {s s' : String} {u v : Bytes} (h : SingleBytes s) :
    textCode s ++ u = partCode (utf8 s') ++ v ↔ s = s' ∧ u = v := by
  rw [textCode_singleBytes h]
  constructor
  · intro heq
    obtain ⟨hpart, hrest⟩ := partCode_inj heq
    exact ⟨utf8_injective hpart, hrest⟩
  · rintro ⟨rfl, rfl⟩
    rfl

theorem textCode_ne_nil (s : String) : textCode s ≠ [] := by
  rw [textCode_eq]
  have hbar : utf8 "|" = [124] := by decide
  simp [hbar]

theorem nonceCode_eq_iff (nonce : String) : textCode nonce =
    (if utf8 nonce = [] then [] else [utf8 nonce]).flatMap partCode ↔
      nonce ≠ "" ∧ SingleBytes nonce := by
  by_cases hempty : utf8 nonce = []
  · have hnonce : nonce = "" := utf8_injective hempty
    rw [if_pos hempty]
    constructor
    · intro h
      exact absurd h (textCode_ne_nil nonce)
    · intro h
      exact absurd hnonce h.1
  · have hnonce : nonce ≠ "" := by
      rintro rfl
      exact hempty rfl
    rw [if_neg hempty, List.flatMap_cons, List.flatMap_nil, List.append_nil, textCode_eq_partCode]
    exact ⟨fun h => ⟨hnonce, h⟩, fun h => h.2⟩

theorem eq_normalizeTenant_iff (t : String) : t = normalizeTenant t ↔ t ≠ "" := by
  unfold normalizeTenant
  by_cases h : t = ""
  · rw [if_pos h, h]
    decide
  · simp [h]

theorem eq_normalizeModel_iff (m : String) : m = normalizeModel m ↔ m ≠ "" := by
  unfold normalizeModel
  by_cases h : m = ""
  · rw [if_pos h, h]
    decide
  · simp [h]

/-- The nonce that `run` makes up is never empty and in single bytes. -/
def runNonce (args : Args) (roundIndex : ℤ) : String :=
  "fl-" ++ args.clientId ++ "-round-" ++ toString roundIndex

theorem runNonce_singleBytes (args : Args) (roundIndex : ℤ)
    (h : args.clientId.toList.all isAllowedIdentifierChar = true) :
    runNonce args roundIndex ≠ "" ∧ SingleBytes (runNonce args roundIndex) := by
  constructor
  · intro hempty
    have hlist := congrArg String.toList hempty
    simp [runNonce] at hlist
  · apply singleBytes_of_allowed
    simp only [runNonce, String.toList_append, List.all_append, h, toString_allowed, Bool.and_true]
    decide

theorem submitContext_weightPayload (args : Args) (roundIndex : ℤ) (nonce : String)
    (payload : SubmitWeightsRequest) (peer : Peer) :
    submitContext (weightPayload args roundIndex nonce payload) peer =
      [utf8 peer.identity, utf8 (normalizeTenant args.tenant), utf8 (normalizeModel args.model),
        utf8 args.clientId, utf8 (toString roundIndex), utf8 "submit"] ++
        (if utf8 nonce = [] then [] else [utf8 nonce]) := rfl

/-- The submission of the client is decrypted, whatever the nonce, exactly when
it names its scope, and its nonce is not empty and in single bytes; a stream
exactly when it names its scope. -/
theorem contexts_agree_iff (args : Args) (roundIndex : ℤ) (nonce : String)
    (payload : SubmitWeightsRequest) (request : ModelRequest) (peer : Peer)
    (hids : validateFederatedRequestIds args.tenant args.model args.clientId = "")
    (hpeer : peer.identity = peerIdentity) :
    (utf8 (toMac (keyContext args roundIndex nonce)) =
        macInput (submitContext (weightPayload args roundIndex nonce payload) peer) ↔
      args.tenant ≠ "" ∧ args.model ≠ "" ∧ nonce ≠ "" ∧ SingleBytes nonce) ∧
    (utf8 (toMac (streamKeyContext args)) =
        macInput (streamContext (modelRequest args request) peer) ↔
      args.tenant ≠ "" ∧ args.model ≠ "") := by
  obtain ⟨⟨-, htenant⟩, ⟨-, hmodel⟩, -, -, hclient⟩ := validateFederatedRequestIds_eq_empty.mp hids
  have hpeerBytes : SingleBytes peerIdentity := by decide
  constructor
  · rw [utf8_toMac, macInput_eq, List.append_cancel_left_eq, submitContext_weightPayload, hpeer]
    simp only [keyContext, List.flatMap_cons, List.flatMap_append, List.flatMap_nil,
      List.append_assoc, List.append_nil]
    rw [textCode_append_iff hpeerBytes, textCode_append_iff (singleBytes_of_allowed htenant),
      textCode_append_iff (singleBytes_of_allowed hmodel),
      textCode_append_iff (singleBytes_of_allowed hclient),
      textCode_append_iff (singleBytes_of_allowed (toString_allowed roundIndex)),
      textCode_append_iff (by decide), nonceCode_eq_iff, eq_normalizeTenant_iff,
      eq_normalizeModel_iff]
    simp
  · rw [utf8_toMac, macInput_eq, List.append_cancel_left_eq, streamContext, hpeer]
    simp only [streamKeyContext, modelRequest, List.flatMap_cons, List.flatMap_nil]
    rw [textCode_append_iff hpeerBytes, textCode_append_iff (singleBytes_of_allowed htenant),
      textCode_append_iff (singleBytes_of_allowed hmodel),
      textCode_append_iff (singleBytes_of_allowed hclient),
      textCode_append_iff (by decide), eq_normalizeTenant_iff, eq_normalizeModel_iff]
    simp

def emptyPayload : SubmitWeightsRequest :=
  ⟨"", "", "", 0, 0, [], [], [], [], [], "", 0, "", ""⟩

def clientPeer : Peer := ⟨true, peerIdentity⟩

def demoArgs : Args := ⟨"python-client-1", "demo-tenant", "demo-model"⟩

theorem contexts_agree_demo :
    utf8 (toMac (keyContext demoArgs 1 (runNonce demoArgs 1))) =
        macInput (submitContext (weightPayload demoArgs 1 (runNonce demoArgs 1) emptyPayload)
          clientPeer) ∧
      utf8 (toMac (streamKeyContext demoArgs)) =
        macInput (streamContext (modelRequest demoArgs {}) clientPeer) := by
  have hagree := contexts_agree_iff demoArgs 1 (runNonce demoArgs 1) emptyPayload {} clientPeer
    (by decide +kernel) rfl
  have hnonce := runNonce_singleBytes demoArgs 1 (by decide +kernel)
  constructor
  · exact hagree.1.mpr ⟨by decide, by decide, hnonce⟩
  · exact hagree.2.mpr (by decide)

/-- The validator accepts an empty tenant, and the server takes the default one
for it; the client goes on with the empty text. -/
theorem default_tenant_differs :
    validateFederatedRequestIds "" "cnn" "fl-client-1" = "" ∧
      utf8 (toMac (streamKeyContext ⟨"fl-client-1", "", "cnn"⟩)) ≠
        macInput (streamContext (modelRequest ⟨"fl-client-1", "", "cnn"⟩ {}) clientPeer) ∧
      utf8 (toMac (keyContext ⟨"fl-client-1", "", "cnn"⟩ 1 "fl-fl-client-1-round-1")) ≠
        macInput (submitContext (weightPayload ⟨"fl-client-1", "", "cnn"⟩ 1
          "fl-fl-client-1-round-1" emptyPayload) clientPeer) := by
  decide +kernel

end PqFl.PythonClient
