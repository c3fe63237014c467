import PqFl.Binary32
import PqFl.Server

/-!
# The configuration

`Config::ServerConfig` with its defaults and `Config::Validate`. The server is
parametric in its deployment; runs on fixed inputs use the default one, with a
cipher that stands in for the primitives.
-/

set_option autoImplicit false

namespace PqFl.Configuration
open PqFl.Identifiers PqFl.StoreRecords PqFl.Crypto PqFl.Aggregation PqFl.Buffer PqFl.Services
open PqFl.Process PqFl.Floats

structure ServerConfig (F : Type) extends Config F where
  address : String
  keyPath : String
  payloadKeyPath : String
  stateStorePath : String
  learningRate : F
  batchSize : ℤ

instance {F : Type} : Coe (ServerConfig F) (AggregationConfig F) :=
  ⟨fun cfg => cfg.toAggregationConfig⟩

section
variable {F : Type} [Arith F]

/-- `value >= 0.0f`, false of a value which is not a number. -/
def isNonnegative (value : F) : Bool :=
  isPositive value || (Arith.isFinite value && !Arith.lt value (Arith.ofInt 0))

/-- What `Validate` requires, in its order. -/
def requirements (cfg : ServerConfig F) : List (Bool × String) := [
  (cfg.address != "", "config.address must not be empty"),
  (cfg.keyPath != "", "config.key_path must not be empty"),
  (cfg.payloadKeyPath != "", "config.payload_key_path must not be empty"),
  (cfg.checkpointDir != "", "config.checkpoint_dir must not be empty"),
  (cfg.stateStorePath != "", "config.state_store_path must not be empty"),
  (1 ≤ cfg.requiredClients, "config.fl.required_clients must be >= 1"),
  (1 ≤ cfg.targetRounds, "config.fl.target_rounds must be >= 1"),
  (isPositive cfg.learningRate, "config.fl.learning_rate must be > 0"),
  (1 ≤ cfg.batchSize, "config.fl.batch_size must be >= 1"),
  (30 ≤ cfg.defaultAssignmentTtlSeconds,
    "config.fl.default_assignment_ttl_seconds must be >= 30"),
  (["fedavg", "krum", "trimmed_mean"].contains cfg.aggregationStrategy,
    "config.fl.aggregation_strategy must be one of fedavg, krum, trimmed_mean"),
  (isNonnegative cfg.clipNorm, "config.privacy.clip_norm must be >= 0"),
  (isNonnegative cfg.serverMomentum, "config.fl.server_momentum must be >= 0"),
  (isNonnegative cfg.trimmedMeanBeta &&
      Arith.lt cfg.trimmedMeanBeta (Arith.ofInt 1 / Arith.ofInt 2),
    "config.privacy.trimmed_mean_beta must be in [0, 0.5)"),
  (isPositive cfg.dpEpsilon, "config.privacy.dp_epsilon must be > 0"),
  (isPositive cfg.dpDelta && Arith.lt cfg.dpDelta (Arith.ofInt 1),
    "config.privacy.dp_delta must be in (0, 1)"),
  (cfg.adminPeerIdentities != [], "config.admin_peer_identities must contain at least one identity"),
  (cfg.workerPeerIdentities != [],
    "config.worker_peer_identities must contain at least one identity")]

/-- The message of the first requirement which is not met. -/
def validate (cfg : ServerConfig F) : Except String Unit :=
  match (requirements cfg).find? (fun requirement => !requirement.1) with
  | none => .ok ()
  | some requirement => .error requirement.2

theorem validate_ok {cfg : ServerConfig F} :
    validate cfg = .ok () ↔ ∀ requirement ∈ requirements cfg, requirement.1 = true := by
  unfold validate
  cases h : (requirements cfg).find? (fun requirement => !requirement.1) with
  | none => simpa using h
  | some requirement =>
    have hmem := List.mem_of_find?_eq_some h
    have hfails := List.find?_some h
    constructor
    · intro hok
      cases hok
    · intro hall
      simp [hall requirement hmem] at hfails

end

/-- The initial values of the members; decimal literals are rounded quotients. -/
def defaultConfig : ServerConfig Binary32 where
  address := "0.0.0.0:50051"
  keyPath := "data/master.key"
  payloadKeyPath := "data/payload.key"
  stateStorePath := "data/state.json"
  learningRate := Arith.ofInt 1 / Arith.ofInt 100
  batchSize := 32
  requiredClients := 2
  targetRounds := 100
  aggregationStrategy := "fedavg"
  serverMomentum := Arith.ofInt 0
  defaultAssignmentTtlSeconds := 120
  dpEpsilon := Arith.ofInt 1
  dpDelta := Arith.ofInt 1 / Arith.ofInt 100000
  clipNorm := Arith.ofInt 1
  trimmedMeanBeta := Arith.ofInt 1 / Arith.ofInt 10
  checkpointDir := "models"
  auditEventRetention := 2000
  adminPeerIdentities := ["pqfl-admin"]
  workerPeerIdentities := ["pqfl-worker"]

example : validate defaultConfig = .ok () := by decide +kernel

/-- A cipher whose tag is the key, and a hash which is the secret: enough for
runs in which nobody forges anything. -/
def standInPrimitives : Primitives where
  hmacSha256 secret _ := Block.read 32 secret
  gcmSeal key _ plaintext := (plaintext, Block.read 16 key.1)
  gcmOpen key _ ciphertext tag := if tag = Block.read 16 key.1 then some ciphertext else none
  kemCiphertextLength := 1568
  kemDecaps _ _ := none
  gcmOpen_gcmSeal key iv plaintext := by simp

def standardDeployment : Deployment Binary32 := ⟨defaultConfig.toConfig, standInPrimitives⟩

def admin : Peer := ⟨true, "pqfl-admin"⟩

def zeroKey : Key := Block.read 32 []

def firstStart : Start := ⟨0, zeroKey, zeroKey, []⟩

/-- The clock reads `now`, there is no noise, and every file can be written. -/
def calm (now : ℕ) : Oracle Binary32 :=
  ⟨now, ⟨fun _ => Arith.ofInt 0, fun _ => Arith.ofInt 0, Block.read 12 [], .written⟩⟩

def proceeds (n now : ℕ) : List (Action Binary32) := List.replicate n (.proceed (calm now))

def registering (clientId : String) (peer : Peer) : List (Action Binary32) :=
  .registerClient ⟨"t", "m", clientId, 1, "", ""⟩ peer 0 :: proceeds 4 0

def addingDataset : Action Binary32 :=
  .upsertDataset { tenantId := "t", modelId := "m", datasetId := "d", storageUri := "s3://scans"
                   format := "dicom" } admin 0

def creatingJob (targetRounds minClientsPerRound : ℤ) (now : ℕ) : Action Binary32 :=
  .createTrainingJob ⟨"t", "m", "d", targetRounds, minClientsPerRound, minClientsPerRound, 30, ""⟩
    admin now

def leasing (clientId : String) (peer : Peer) (now : ℕ) : List (Action Binary32) :=
  .getTrainingConfig ⟨"t", "m", clientId⟩ peer :: proceeds 4 now

/-- A submission of one zero weight, sealed under the session key. -/
def zeroSubmission (clientId : String) (roundIndex : ℤ) (jobId assignmentId : String) :
    SubmitWeightsRequest where
  tenantId := "t"
  modelId := "m"
  clientId := clientId
  roundIndex := roundIndex
  localDatasetSize := 1
  encryptedWeights := [0, 0, 0, 0]
  iv := List.replicate 12 0
  authTag := List.replicate 16 0
  clientNonce := []
  kemCiphertext := []
  keyAgreement := ""
  baseModelVersion := 0
  jobId := jobId
  assignmentId := assignmentId

def site : Peer := ⟨true, "site"⟩

def leasedRun : List (Action Binary32) :=
  registering "a" site ++ [addingDataset, creatingJob 3 1 1] ++ leasing "a" site 2

def jobAt1 : String := "t::m::d::1970-01-01T00:00:00.001Z"

def leaseAt2 : String := jobAt1 ++ "::round:1::client:a::1970-01-01T00:00:00.002Z"

def jobAt3 : String := "t::m::d::1970-01-01T00:00:00.003Z"

def leaseAt4 : String := jobAt3 ++ "::round:1::client:b::1970-01-01T00:00:00.004Z"

/-- The client submits, and its handler gets as far as the advance of the job. -/
def acceptedRun : List (Action Binary32) :=
  leasedRun ++ .submitWeights (zeroSubmission "a" 1 jobAt1 leaseAt2) site :: proceeds 13 3

/-- A submission which declares its base, up to its answer. -/
def basedOn (clientId : String) (round base : ℤ) (steps : ℕ) : List (Action Binary32) :=
  .submitWeights { zeroSubmission clientId round "" "" with baseModelVersion := base } site ::
    proceeds steps 1

def roundOn (round base : ℤ) : List (Action Binary32) :=
  basedOn "a" round base 9 ++ basedOn "b" round base 12

def twoClients : List (Action Binary32) := registering "a" site ++ registering "b" site

end PqFl.Configuration
