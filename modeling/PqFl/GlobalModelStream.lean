import PqFl.SessionContexts

/-!
# StreamGlobalModel

The call object of `StreamGlobalModel`: a status, five flags and the round
that it sent last. `Proceed` handles one completion event of the object; it
returns what is left of the object, the operations that it started in their
order, and whether it created the next listener. An exception that leaves the
handler is the error.
-/

set_option autoImplicit false

namespace PqFl.Streams
open PqFl.Identifiers PqFl.ClientRegistry PqFl.Crypto PqFl.Aggregation PqFl.Buffer PqFl.Services

inductive StreamEvent where
  | start | request | write | alarm | finish | done
  deriving DecidableEq, Repr

inductive CallStatus where
  | create | process | stream | finish
  deriving DecidableEq, Repr

structure ModelRequest where
  clientId : String := ""
  lastReceivedRound : ℤ := 0
  tenantId : String := ""
  modelId : String := ""
  clientKemPublicKey : Bytes := []
  deriving DecidableEq

structure GlobalModelUpdate where
  roundIndex : ℤ
  encryptedWeights : Bytes
  iv : Bytes
  authTag : Bytes
  serverSignature : Bytes
  aggregationMethod : String
  tenantId : String
  modelId : String
  modelVersion : ℤ
  keyVersion : ℤ
  serverNonce : String
  kemCiphertext : Bytes
  keyAgreement : String
  deriving DecidableEq

inductive StatusCode where
  | invalidArgument | unauthenticated | failedPrecondition | internal
  deriving DecidableEq, Repr

structure Status where
  code : StatusCode
  message : String
  deriving DecidableEq, Repr

structure StreamGlobalModelCall where
  request : ModelRequest := {}
  peer : Peer := ⟨false, ""⟩
  status : CallStatus := .create
  lastSentRound : ℤ := -1
  doneNotifyInFlight : Bool := false
  doneReceived : Bool := false
  writeInFlight : Bool := false
  alarmInFlight : Bool := false
  finishInFlight : Bool := false
  deriving DecidableEq

inductive Operation where
  | notifyWhenDone
  | requestCall
  | write (update : GlobalModelUpdate)
  | setAlarm
  | cancelAlarm
  | finish (status : Status)
  deriving DecidableEq

/-- What the handler takes from outside. `EncapsulateKem` gives a ciphertext
and the shared secret, and there is no initialisation vector where
`EncryptWithKey` throws. -/
structure StreamOracle where
  now : ℕ
  encapsulated : Option (Bytes × Bytes)
  iv : Option (Block 12)
  signData : Bytes → Bytes

structure Proceeded where
  call : Option StreamGlobalModelCall
  operations : List Operation := []
  spawned : Bool := false
  deriving DecidableEq

variable {F : Type} [FloatArith F]

def streamContext (q : ModelRequest) (peer : Peer) : List Bytes :=
  [utf8 peer.identity, utf8 (normalizeTenant q.tenantId), utf8 (normalizeModel q.modelId),
    utf8 q.clientId, utf8 "stream"]

def finishWithStatus (c : StreamGlobalModelCall) (code : StatusCode) (message : String) :
    Proceeded :=
  { call := some { c with status := .finish, finishInFlight := true }
    operations := [.finish ⟨code, message⟩] }

/-- The object that is left, `none` after `delete this`. -/
def maybeDeleteAfterTerminalEvent (c : StreamGlobalModelCall) : Option StreamGlobalModelCall :=
  if c.writeInFlight || c.alarmInFlight || c.finishInFlight || c.doneNotifyInFlight then some c
  else if c.doneReceived || c.status == .finish then none
  else some c

/-- The checks of a request, `none` when it passes them. -/
def streamRefusal (g : Registry) (q : ModelRequest) (peer : Peer) : Option (StatusCode × String) :=
  let error := validateFederatedRequestIds q.tenantId q.modelId q.clientId
  if error ≠ "" then some (.invalidArgument, error)
  else if !peer.authenticated then
    some (.unauthenticated, "Authenticated client certificate required")
  else if !isRegisteredForPeer g (normalizeTenant q.tenantId) (normalizeModel q.modelId) q.clientId
      (normalizePeerIdentity peer.identity) then
    some (.failedPrecondition,
      "Client must register with the same certificate identity before streaming models")
  else none

/-- Signs the sealed model and starts to write it. -/
def writeUpdate (d : Deployment F) (e : CryptoEngine) (c : StreamGlobalModelCall)
    (latest : LatestModelSnapshot F) (sessionKey : Key) (kemCiphertext : Bytes)
    (keyAgreement : String) (o : StreamOracle) : Proceeded :=
  match o.iv with
  | none => finishWithStatus c .internal "Failed to encrypt global model"
  | some iv =>
    let tenantId := normalizeTenant c.request.tenantId
    let modelId := normalizeModel c.request.modelId
    let sealed := d.primitives.gcmSeal sessionKey iv (floatBytes latest.weights)
    let toSign := utf8 (normalizeTenant tenantId ++ "|" ++ normalizeModel modelId ++ "|" ++
      toString latest.round ++ "|" ++ toString latest.modelVersion ++ "|") ++ sealed.1
    { call := some { c with writeInFlight := true }
      operations := [.write {
        roundIndex := latest.round
        encryptedWeights := sealed.1
        iv := iv.1
        authTag := sealed.2.1
        serverSignature := o.signData toSign
        aggregationMethod := d.config.aggregationStrategy
        tenantId := tenantId
        modelId := modelId
        modelVersion := latest.modelVersion
        keyVersion := e.activeKeyVersion
        serverNonce := Timestamps.currentTimestamp o.now
        kemCiphertext := kemCiphertext
        keyAgreement := keyAgreement }] }

def sendLatest (d : Deployment F) (e : CryptoEngine) (c : StreamGlobalModelCall)
    (latest : LatestModelSnapshot F) (o : StreamOracle) : Except String Proceeded :=
  let c := { c with lastSentRound := latest.round }
  if c.request.clientKemPublicKey ≠ [] then
    match o.encapsulated with
    | none => .ok (finishWithStatus c .invalidArgument "Invalid ML-KEM-1024 client public key")
    | some (kemCiphertext, sharedSecret) =>
      (deriveSessionKeyWithSecret d.primitives sharedSecret (streamContext c.request c.peer)).map
        (fun key => writeUpdate d e c latest key kemCiphertext "ml-kem-1024" o)
  else
    (deriveSessionKey d.primitives e (streamContext c.request c.peer)).map
      (fun key => writeUpdate d e c latest key [] "shared-secret" o)

/-- Waits for a second or sends the latest model. -/
def serve (d : Deployment F) (w : World F) (c : StreamGlobalModelCall) (o : StreamOracle) :
    Except String Proceeded :=
  let latest := getLatestGlobalModel w.buffer (normalizeTenant c.request.tenantId)
    (normalizeModel c.request.modelId)
  if latest.round = -1 ∨ latest.weights = [] ∨ latest.round = c.lastSentRound ∨
      latest.round ≤ c.request.lastReceivedRound then
    if c.doneReceived then .ok { call := maybeDeleteAfterTerminalEvent c }
    else .ok { call := some { c with alarmInFlight := true }, operations := [.setAlarm] }
  else sendLatest d w.crypto c latest o

/-- A matched call, after the next listener was created. -/
def acceptStream (d : Deployment F) (w : World F) (c : StreamGlobalModelCall) (o : StreamOracle) :
    Except String Proceeded :=
  match streamRefusal w.registry c.request c.peer with
  | some (code, message) => .ok (finishWithStatus c code message)
  | none => serve d w { c with status := .stream } o

/-- The part after the flags were updated, by the status of the object. -/
def proceedStatus (d : Deployment F) (w : World F) (c : StreamGlobalModelCall)
    (o : StreamOracle) : Except String Proceeded :=
  match c.status with
  | .create => .ok {
      call := some { c with status := .process, doneNotifyInFlight := true }
      operations := (if c.doneNotifyInFlight then [] else [.notifyWhenDone]) ++ [.requestCall] }
  | .process => (acceptStream d w c o).map (fun p => { p with spawned := true })
  | .stream => serve d w c o
  | .finish => .ok { call := none }

def proceed (d : Deployment F) (w : World F) (c : StreamGlobalModelCall) (ok : Bool)
    (event : StreamEvent) (o : StreamOracle) : Except String Proceeded :=
  match event with
  | .finish => .ok { call := maybeDeleteAfterTerminalEvent { c with finishInFlight := false } }
  | .done =>
    .ok {
      call := maybeDeleteAfterTerminalEvent { c with
        doneNotifyInFlight := false, doneReceived := true }
      operations := if c.alarmInFlight then [.cancelAlarm] else [] }
  | .write =>
    let c := { c with writeInFlight := false }
    if !ok || c.doneReceived then .ok { call := maybeDeleteAfterTerminalEvent c }
    else proceedStatus d w c o
  | .alarm =>
    let c := { c with alarmInFlight := false }
    if !ok || c.doneReceived then .ok { call := maybeDeleteAfterTerminalEvent c }
    else proceedStatus d w c o
  | .start | .request => if !ok then .ok { call := none } else proceedStatus d w c o

/-- The constructor of a call, which starts to listen. -/
def newStreamGlobalModelCall : Proceeded where
  call := some { status := .process, doneNotifyInFlight := true }
  operations := [.notifyWhenDone, .requestCall]

theorem proceed_matched {d : Deployment F} {w : World F} {c : StreamGlobalModelCall}
    {o : StreamOracle} {p : Proceeded} (hstatus : c.status = .process)
    (h : proceed d w c true .request o = .ok p) :
    (∃ code message, p = { finishWithStatus c code message with spawned := true }) ∨
    ∃ p', serve d w { c with status := .stream } o = .ok p' ∧ p = { p' with spawned := true } := by
  simp only [proceed, proceedStatus, hstatus, Bool.not_true, Bool.false_eq_true, if_false] at h
  cases haccept : acceptStream d w c o with
  | error what =>
    rw [haccept] at h
    cases h
  | ok p' =>
    rw [haccept] at h
    cases h
    unfold acceptStream at haccept
    split at haccept
    · cases haccept
      exact .inl ⟨_, _, rfl⟩
    · exact .inr ⟨p', haccept, rfl⟩

theorem streamContext_parts (q : ModelRequest) (peer : Peer) : streamContext q peer =
    (SessionContexts.RpcContext.stream peer.identity (normalizeTenant q.tenantId)
      (normalizeModel q.modelId) q.clientId).parts := rfl

theorem ok_of_map {ε α β : Type} {x : Except ε α} {f : α → β} {b : β} (h : x.map f = .ok b) :
    ∃ a, x = .ok a ∧ f a = b := by
  cases x with
  | error what => cases h
  | ok a => exact ⟨a, rfl, Except.ok.inj h⟩

/-- A stream that is served waits, writes the latest model or finishes. -/
inductive Served (latest : LatestModelSnapshot F) (c : StreamGlobalModelCall) : Proceeded → Prop
  | waited (h : latest.round = -1 ∨ latest.weights = [] ∨ latest.round = c.lastSentRound ∨
      latest.round ≤ c.request.lastReceivedRound) :
      Served latest c ⟨some { c with alarmInFlight := true }, [.setAlarm], false⟩
  | wrote (update : GlobalModelUpdate) (hround : update.roundIndex = latest.round)
      (hversion : update.modelVersion = latest.modelVersion) :
      Served latest c ⟨some { c with lastSentRound := latest.round, writeInFlight := true },
        [.write update], false⟩
  | finished (code : StatusCode) (message : String) :
      Served latest c (finishWithStatus { c with lastSentRound := latest.round } code message)

theorem writeUpdate_served {d : Deployment F} {e : CryptoEngine} {c : StreamGlobalModelCall}
    {latest : LatestModelSnapshot F} {key : Key} {kemCiphertext : Bytes} {keyAgreement : String}
    {o : StreamOracle} : Served latest c (writeUpdate d e
      { c with lastSentRound := latest.round } latest key kemCiphertext keyAgreement o) := by
  unfold writeUpdate
  cases o.iv with
  | none => exact .finished _ _
  | some iv => exact .wrote _ rfl rfl

theorem sendLatest_served {d : Deployment F} {e : CryptoEngine} {c : StreamGlobalModelCall}
    {latest : LatestModelSnapshot F} {o : StreamOracle} {p : Proceeded}
    (h : sendLatest d e c latest o = .ok p) : Served latest c p := by
  unfold sendLatest at h
  simp only at h
  split at h
  · cases hkem : o.encapsulated with
    | none =>
      rw [hkem] at h
      cases h
      exact .finished _ _
    | some pair =>
      obtain ⟨kemCiphertext, sharedSecret⟩ := pair
      rw [hkem] at h
      obtain ⟨key, -, rfl⟩ := ok_of_map h
      exact writeUpdate_served
  · obtain ⟨key, -, rfl⟩ := ok_of_map h
    exact writeUpdate_served

theorem serve_served {d : Deployment F} {w : World F} {c : StreamGlobalModelCall}
    {o : StreamOracle} {p : Proceeded} (hdone : c.doneReceived = false)
    (h : serve d w c o = .ok p) :
    Served (getLatestGlobalModel w.buffer (normalizeTenant c.request.tenantId)
      (normalizeModel c.request.modelId)) c p := by
  unfold serve at h
  simp only at h
  split at h
  · rename_i hwait
    rw [if_neg (by rw [hdone]; exact Bool.false_ne_true)] at h
    cases h
    exact .waited hwait
  · exact sendLatest_served h

end PqFl.Streams
