import PqFl.BufferHistories
import PqFl.CheckpointPaths
import PqFl.ModelVersions
import PqFl.RejectedAttempts
import PqFl.TenantIsolation
import PqFl.Unwinding

/-!
# A server of one's own

One registry, one buffer, one model registry and one directory of checkpoints
serve all scopes. A tenant and a model whose keys overlap no other scope's are
answered as by a server which only they call, whatever the others do meanwhile.
-/

set_option autoImplicit false

namespace PqFl.PrivateScopes
open PqFl.Identifiers PqFl.StoreRecords PqFl.StateStore PqFl.ClientRegistry PqFl.Crypto
open PqFl.Aggregation PqFl.Buffer PqFl.Services PqFl.CheckpointPaths PqFl.ModelVersions
open PqFl.TenantIsolation PqFl.Unwinding PqFl.Floats PqFl.Process PqFl.Configuration

/-- A tenant and a model as the handlers have them after the checks, whose
directory is below the one of the checkpoints. -/
structure Scope where
  tenantId : String
  modelId : String
  tenant : Accepted tenantId
  model : Accepted modelId
  tenantNames : Names tenantId
  modelNames : Names modelId
  deriving DecidableEq

/-- Scopes whose client keys do not overlap. -/
def Apart (x y : Scope) : Prop := ¬ keysOverlap x.tenantId x.modelId y.tenantId y.modelId

section
variable {F : Type}

structure SameRounds (x : Scope) (b b' : WeightBuffer F) : Prop where
  completed : ∀ r, roundKey x.tenantId x.modelId r ∈ b.completedRounds ↔
    roundKey x.tenantId x.modelId r ∈ b'.completedRounds
  pending : ∀ r, submissions b (roundKey x.tenantId x.modelId r) =
    submissions b' (roundKey x.tenantId x.modelId r)
  sizes : ∀ r, datasetSizes b (roundKey x.tenantId x.modelId r) =
    datasetSizes b' (roundKey x.tenantId x.modelId r)
  latest : b.latestModels.lookup (scopeKey x.tenantId x.modelId) =
    b'.latestModels.lookup (scopeKey x.tenantId x.modelId)
  velocity : b.optimizerVelocity.lookup (scopeKey x.tenantId x.modelId) =
    b'.optimizerVelocity.lookup (scopeKey x.tenantId x.modelId)

def SameClients (x : Scope) (g g' : Registry) : Prop := ∀ c, Accepted c →
  g.lookup (clientKey x.tenantId x.modelId c) = g'.lookup (clientKey x.tenantId x.modelId c)

def SameFiles (dir : String) (x : Scope) (files files' : CheckpointFiles) : Prop := ∀ r,
  readFile files (checkpointPath dir x.tenantId x.modelId r) =
    readFile files' (checkpointPath dir x.tenantId x.modelId r)

structure SameScope (dir : String) (x : Scope) (w w' : World F) : Prop where
  clients : SameClients x w.registry w'.registry
  rounds : SameRounds x w.buffer w'.buffer
  models : modelsOf w.store x.tenantId x.modelId = modelsOf w'.store x.tenantId x.modelId
  files : SameFiles dir x w.files w'.files
  crypto : w.crypto = w'.crypto

theorem sameRounds_refl (x : Scope) (b : WeightBuffer F) : SameRounds x b b :=
  ⟨fun _ => Iff.rfl, fun _ => rfl, fun _ => rfl, rfl, rfl⟩

theorem SameRounds.symm {x : Scope} {b b' : WeightBuffer F} (h : SameRounds x b b') :
    SameRounds x b' b :=
  ⟨fun r => (h.completed r).symm, fun r => (h.pending r).symm, fun r => (h.sizes r).symm,
    h.latest.symm, h.velocity.symm⟩

theorem SameRounds.trans {x : Scope} {b b' b'' : WeightBuffer F} (h : SameRounds x b b')
    (h' : SameRounds x b' b'') : SameRounds x b b'' :=
  ⟨fun r => (h.completed r).trans (h'.completed r), fun r => (h.pending r).trans (h'.pending r),
    fun r => (h.sizes r).trans (h'.sizes r), h.latest.trans h'.latest,
    h.velocity.trans h'.velocity⟩

theorem sameScope_equivalence (dir : String) (x : Scope) :
    Equivalence (SameScope (F := F) dir x) where
  refl w := ⟨fun _ _ => rfl, sameRounds_refl x w.buffer, rfl, fun _ => rfl, rfl⟩
  symm h := ⟨fun c hc => (h.clients c hc).symm, h.rounds.symm, h.models.symm,
    fun r => (h.files r).symm, h.crypto.symm⟩
  trans h h' := ⟨fun c hc => (h.clients c hc).trans (h'.clients c hc), h.rounds.trans h'.rounds,
    h.models.trans h'.models, fun r => (h.files r).trans (h'.files r), h.crypto.trans h'.crypto⟩

variable {x : Scope} {b b' : WeightBuffer F}

def Within (x : Scope) (q : Submission F) : Prop := q.tenantId = x.tenantId ∧ q.modelId = x.modelId

theorem SameRounds.removed (h : SameRounds x b b') (key clientId : String) :
    SameRounds x (removeSubmissionLocked b key clientId)
      (removeSubmissionLocked b' key clientId) where
  completed := h.completed
  pending r := by
    rw [submissions_removeSubmissionLocked, submissions_removeSubmissionLocked, h.pending r]
  sizes r := by
    rw [BufferHistories.datasetSizes_removeSubmissionLocked,
      BufferHistories.datasetSizes_removeSubmissionLocked, h.sizes r]
  latest := h.latest
  velocity := h.velocity

theorem SameRounds.version (h : SameRounds x b b') :
    getLatestModelVersionLocked b (scopeKey x.tenantId x.modelId) =
      getLatestModelVersionLocked b' (scopeKey x.tenantId x.modelId) := by
  unfold getLatestModelVersionLocked
  rw [h.latest]

theorem SameRounds.refused (h : SameRounds x b b') {q : Submission F} (hq : Within x q)
    (message : String) : (refuse b q message).2 = (refuse b' q message).2 ∧
      SameRounds x (refuse b q message).1 (refuse b' q message).1 := by
  have hremoved := h.removed (roundKey q.tenantId q.modelId q.round) q.clientId
  have hversion := hremoved.version
  rw [← hq.1, ← hq.2] at hversion
  unfold refuse
  dsimp only
  rw [hversion]
  exact ⟨rfl, hremoved⟩

variable {cfg : AggregationConfig F} {files files' : CheckpointFiles}

theorem SameRounds.published (h : SameRounds x b b') {q : Submission F} (hq : Within x q)
    (result : List F) (version : ℤ) :
    SameRounds x (publish b q result version).1 (publish b' q result version).1 where
  completed r := by
    unfold publish
    simp only [Finset.mem_insert, h.completed r]
  pending := h.pending
  sizes := h.sizes
  latest := by
    unfold publish
    dsimp only
    rw [hq.1, hq.2, AList.lookup_insert, AList.lookup_insert]
  velocity := h.velocity

variable {g g' : Registry}
variable {dir : String} {w w' : World F}
variable {y : Scope}

theorem Apart.scopeKey_ne (h : Apart y x) :
    scopeKey x.tenantId x.modelId ≠ scopeKey y.tenantId y.modelId :=
  fun he => h (keysOverlap_of_scopeKey_eq he.symm)

theorem Apart.roundKey_ne (h : Apart y x) (r r' : ℤ) :
    roundKey x.tenantId x.modelId r ≠ roundKey y.tenantId y.modelId r' :=
  fun he => h.scopeKey_ne (roundKey_inj he).1

theorem Apart.removed (h : Apart y x) {q : Submission F} (hq : Within y q) (b : WeightBuffer F) :
    SameRounds x (removeSubmissionLocked b (roundKey q.tenantId q.modelId q.round) q.clientId)
      b where
  completed _ := Iff.rfl
  pending r := by
    rw [submissions_removeSubmissionLocked, if_neg (by rw [hq.1, hq.2]; exact h.roundKey_ne r _)]
  sizes r := by
    rw [BufferHistories.datasetSizes_removeSubmissionLocked,
      if_neg (by rw [hq.1, hq.2]; exact h.roundKey_ne r _)]
  latest := rfl
  velocity := rfl

theorem Apart.published (h : Apart y x) {q : Submission F} (hq : Within y q) (b : WeightBuffer F)
    (result : List F) (version : ℤ) : SameRounds x (publish b q result version).1 b where
  completed r := by
    unfold publish
    rw [hq.1, hq.2, Finset.mem_insert]
    exact or_iff_right (h.roundKey_ne r _)
  pending _ := rfl
  sizes _ := rfl
  latest := by
    unfold publish
    rw [hq.1, hq.2]
    exact AList.lookup_insert_ne h.scopeKey_ne
  velocity := rfl

theorem Apart.models (h : Apart y x) :
    ¬ (normalizeTenant x.tenantId = normalizeTenant y.tenantId ∧
      normalizeModel x.modelId = normalizeModel y.modelId) := by
  intro hsame
  apply h.scopeKey_ne
  rw [scopeKey, scopeKey, hsame.1, hsame.2]

variable [FloatArith F]

/-- The calls which the handlers make in one scope. The clients are those of
requests which passed the checks. -/
inductive ScopeCall (F : Type) where
  | register (info : ClientInfo) (h : Accepted info.clientId)
  | isRegistered (clientId : String) (h : Accepted clientId)
  | isRegisteredForPeer (clientId peerIdentity : String) (h : Accepted clientId)
  | bindPeerIdentityIfMissing (clientId peerIdentity : String) (h : Accepted clientId)
  | updateLastActiveRound (clientId : String) (round : ℤ) (h : Accepted clientId)
  | isRoundCompleted (round : ℤ)
  | hasClientSubmission (round : ℤ) (clientId : String)
  | getNumClients (round : ℤ)
  | addWeightAndCheckAggregate (clientId : String) (round datasetSize : ℤ) (weights : List F)
      (requiredClients : ℕ) (draw : Draw F) (now : ℕ)
  | getLatestGlobalModel
  | getActiveModelVersion
  | rollbackModel (targetVersion : ℤ) (now : ℕ)
  | readCheckpoint (round : ℤ)
  | restoreLatestGlobalModel (round modelVersion : ℤ) (weights : List F)

/-- A call in a scope, or the rotation of the key which all checkpoints share. -/
inductive SharedCall (F : Type) where
  | inScope (scope : Scope) (call : ScopeCall F)
  | rotateMasterKey (keyBytes : Key)

inductive Answer (F : Type) where
  | done
  | verdict (value : Bool)
  | count (value : ℕ)
  | version (value : ℤ)
  | attempt (result : AggregationAttemptResult)
  | latest (model : LatestModelSnapshot F)
  | target (model : Option PersistedModelRecord)
  | checkpoint (weights : Except String (List F))

def performCall (P : Primitives) (cfg : AggregationConfig F) (x : Scope) (w : World F) :
    ScopeCall F → World F × Answer F
  | .register info _ =>
    let registered := register w.registry
      { info with tenantId := x.tenantId, modelId := x.modelId }
    ({ w with registry := registered.2 }, .verdict registered.1)
  | .isRegistered clientId _ =>
    (w, .verdict (isRegistered w.registry x.tenantId x.modelId clientId))
  | .isRegisteredForPeer clientId peerIdentity _ =>
    (w, .verdict (isRegisteredForPeer w.registry x.tenantId x.modelId clientId peerIdentity))
  | .bindPeerIdentityIfMissing clientId peerIdentity _ =>
    let bound := bindPeerIdentityIfMissing w.registry x.tenantId x.modelId clientId peerIdentity
    ({ w with registry := bound.2 }, .verdict bound.1)
  | .updateLastActiveRound clientId round _ =>
    ({ w with registry := updateLastActiveRound w.registry x.tenantId x.modelId clientId round },
      .done)
  | .isRoundCompleted round =>
    (w, .verdict (isRoundCompleted w.buffer x.tenantId x.modelId round))
  | .hasClientSubmission round clientId =>
    (w, .verdict (hasClientSubmission w.buffer x.tenantId x.modelId round clientId))
  | .getNumClients round => (w, .count (getNumClients w.buffer x.tenantId x.modelId round))
  | .addWeightAndCheckAggregate clientId round datasetSize weights requiredClients draw now =>
    let q : Submission F := ⟨x.tenantId, x.modelId, clientId, round, datasetSize, weights,
      requiredClients⟩
    let (buffer, files, recorded, result) := addWeightAndCheckAggregate P cfg w.crypto w.files
      w.store w.buffer q draw now
    let w := { w with buffer := buffer, files := files }
    (match recorded with
      | none => w
      | some recorded => w.after recorded, .attempt result)
  | .getLatestGlobalModel => (w, .latest (getLatestGlobalModel w.buffer x.tenantId x.modelId))
  | .getActiveModelVersion =>
    (w, .version (getActiveModelVersion w.store x.tenantId x.modelId))
  | .rollbackModel targetVersion now =>
    let rolled := rollbackModel w.store x.tenantId x.modelId targetVersion now
    (w.after rolled, .target rolled.value)
  | .readCheckpoint round => (w, .checkpoint (readCheckpoint P w
      (checkpointPath cfg.checkpointDir x.tenantId x.modelId round)))
  | .restoreLatestGlobalModel round modelVersion weights =>
    let buffer := restoreLatestGlobalModel w.buffer x.tenantId x.modelId round modelVersion weights
    ({ w with buffer := buffer }, .done)

def perform (P : Primitives) (cfg : AggregationConfig F) (w : World F) :
    SharedCall F → World F × Answer F
  | .inScope x call => performCall P cfg x w call
  | .rotateMasterKey keyBytes =>
    match rotateMasterKey w.crypto w.keyFiles keyBytes with
    | none => (w, .done)
    | some (crypto, keyFiles) => ({ w with crypto := crypto, keyFiles := keyFiles }, .done)

/-- The calls which a scope sees: its own, and the rotations. -/
def concerns (x : Scope) : SharedCall F → Bool
  | .inScope y _ => decide (y = x)
  | .rotateMasterKey _ => true

theorem SameRounds.inserted (h : SameRounds x b b') (clipNorm : F) (q : Submission F) :
    SameRounds x (insertSubmission b clipNorm q) (insertSubmission b' clipNorm q) where
  completed := h.completed
  pending r := by rw [submissions_insertSubmission, submissions_insertSubmission, h.pending r]
  sizes r := by rw [BufferHistories.datasetSizes_insertSubmission,
    BufferHistories.datasetSizes_insertSubmission, h.sizes r]
  latest := h.latest
  velocity := h.velocity

theorem SameRounds.smoothed (h : SameRounds x b b') (serverMomentum : F) (result : List F) :
    (smooth b serverMomentum (scopeKey x.tenantId x.modelId) result).2 =
        (smooth b' serverMomentum (scopeKey x.tenantId x.modelId) result).2 ∧
      SameRounds x (smooth b serverMomentum (scopeKey x.tenantId x.modelId) result).1
        (smooth b' serverMomentum (scopeKey x.tenantId x.modelId) result).1 := by
  unfold smooth
  rw [h.latest, h.velocity]
  cases b'.latestModels.lookup (scopeKey x.tenantId x.modelId) with
  | none => exact ⟨rfl, h⟩
  | some latest =>
    dsimp only
    split
    · refine ⟨rfl, h.completed, h.pending, h.sizes, h.latest, ?_⟩
      dsimp only
      rw [AList.lookup_insert, AList.lookup_insert]
    · exact ⟨rfl, h⟩

theorem SameRounds.computed (h : SameRounds x b b') (cfg : AggregationConfig F)
    {q : Submission F} (hq : Within x q) (noise overflow : ℕ → F) :
    (computeAggregate b cfg q noise overflow).2 = (computeAggregate b' cfg q noise overflow).2 ∧
      SameRounds x (computeAggregate b cfg q noise overflow).1
        (computeAggregate b' cfg q noise overflow).1 := by
  simp only [computeAggregate, hq.1, hq.2, h.pending q.round, h.sizes q.round]
  obtain ⟨hresult, hrounds⟩ := h.smoothed cfg.serverMomentum
    (aggregate overflow cfg.aggregationStrategy cfg.trimmedMeanBeta
      (submissions b' (roundKey x.tenantId x.modelId q.round))
      (datasetSizes b' (roundKey x.tenantId x.modelId q.round)))
  rw [hresult]
  exact ⟨rfl, hrounds⟩

theorem SameFiles.inserted {dir : String} {files files' : CheckpointFiles}
    (h : SameFiles dir x files files') (path : List (List Char)) (blob : Bytes) :
    SameFiles dir x (files.insert path blob) (files'.insert path blob) := by
  intro r
  unfold readFile
  by_cases hpath : resolvePath (checkpointPath dir x.tenantId x.modelId r) = path
  · rw [hpath, AList.lookup_insert, AList.lookup_insert]
  · rw [AList.lookup_insert_ne hpath, AList.lookup_insert_ne hpath]
    exact h r

theorem SameFiles.erased {dir : String} {files files' : CheckpointFiles}
    (h : SameFiles dir x files files') (path : List (List Char)) :
    SameFiles dir x (files.erase path) (files'.erase path) := by
  intro r
  unfold readFile
  by_cases hpath : resolvePath (checkpointPath dir x.tenantId x.modelId r) = path
  · rw [hpath, AList.lookup_erase, AList.lookup_erase]
  · rw [AList.lookup_erase_ne hpath, AList.lookup_erase_ne hpath]
    exact h r

structure SameAttempt (dir : String) (x : Scope)
    (o o' : WeightBuffer F × CheckpointFiles × Attempt F) : Prop where
  attempt : o.2.2 = o'.2.2
  rounds : SameRounds x o.1 o'.1
  files : SameFiles dir x o.2.1 o'.2.1

theorem SameRounds.persisted (h : SameRounds x b b')
    (hfiles : SameFiles cfg.checkpointDir x files files') (P : Primitives) (e : CryptoEngine)
    {q : Submission F} (hq : Within x q) (result : List F) (draw : Draw F) :
    SameAttempt cfg.checkpointDir x (persist P e files b cfg q result draw)
      (persist P e files' b' cfg q result draw) := by
  have hpending := h.pending q.round
  rw [← hq.1, ← hq.2] at hpending
  unfold persist
  cases draw.persistence with
  | written =>
    dsimp only
    rw [hpending]
    exact ⟨rfl, h, hfiles.inserted _ _⟩
  | cannotOpen =>
    obtain ⟨hattempt, hrounds⟩ := h.refused hq "Failed to persist encrypted checkpoint"
    exact ⟨hattempt, hrounds, hfiles⟩
  | shortWrite =>
    obtain ⟨hattempt, hrounds⟩ := h.refused hq "Failed to persist encrypted checkpoint"
    exact ⟨hattempt, hrounds, hfiles.erased _⟩
  | threw what =>
    obtain ⟨hattempt, hrounds⟩ := h.refused hq ("Aggregation persistence failed: " ++ what)
    exact ⟨hattempt, hrounds, hfiles.erased _⟩

theorem SameRounds.added (h : SameRounds x b b')
    (hfiles : SameFiles cfg.checkpointDir x files files') (P : Primitives) (e : CryptoEngine)
    {q : Submission F} (hq : Within x q) (draw : Draw F) :
    SameAttempt cfg.checkpointDir x (addWeight P cfg e files b q draw)
      (addWeight P cfg e files' b' q draw) := by
  have hversion := h.version
  have hinserted := h.inserted cfg.clipNorm q
  have hversion' := hinserted.version
  have hpending := hinserted.pending q.round
  have hcompleted := h.completed q.round
  rw [← hq.1, ← hq.2] at hversion hversion' hpending hcompleted
  unfold addWeight
  dsimp only
  by_cases hlate : roundKey q.tenantId q.modelId q.round ∈ b'.completedRounds
  · rw [if_pos (hcompleted.mpr hlate), if_pos hlate, hversion]
    exact ⟨rfl, h, hfiles⟩
  rw [if_neg (fun hmem => hlate (hcompleted.mp hmem)), if_neg hlate, hpending]
  split
  · rw [hversion']
    exact ⟨rfl, hinserted, hfiles⟩
  split
  · obtain ⟨hattempt, hrounds⟩ := hinserted.refused hq
      ("Aggregation validation failed: " ++ validateWeights (submissions
        (insertSubmission b' cfg.clipNorm q) (roundKey q.tenantId q.modelId q.round)))
    exact ⟨hattempt, hrounds, hfiles⟩
  · obtain ⟨hresult, hrounds⟩ := hinserted.computed cfg hq draw.noise draw.overflow
    rw [hresult]
    exact hrounds.persisted hfiles P e hq _ draw

theorem nextVersion_agrees {store store' : StateStore}
    (h : modelsOf store x.tenantId x.modelId = modelsOf store' x.tenantId x.modelId) :
    nextVersion store.models (normalizeTenant x.tenantId) (normalizeModel x.modelId) =
      nextVersion store'.models (normalizeTenant x.tenantId) (normalizeModel x.modelId) := by
  rw [nextVersion_eq, nextVersion_eq]
  exact congrArg (fun l => (l.map (·.version)).foldl (fun next v => max next (v + 1)) 1) h

theorem recorded_agrees {store store' : StateStore}
    (h : modelsOf store x.tenantId x.modelId = modelsOf store' x.tenantId x.modelId)
    (round : ℤ) (path strategy : String) (keyVersion clientCount weightDimension : ℤ) (now : ℕ) :
    (recordAggregatedModel store x.tenantId x.modelId round path strategy keyVersion clientCount
        weightDimension now).value =
      (recordAggregatedModel store' x.tenantId x.modelId round path strategy keyVersion
        clientCount weightDimension now).value ∧
    modelsOf (recordAggregatedModel store x.tenantId x.modelId round path strategy keyVersion
        clientCount weightDimension now).store x.tenantId x.modelId =
      modelsOf (recordAggregatedModel store' x.tenantId x.modelId round path strategy keyVersion
        clientCount weightDimension now).store x.tenantId x.modelId := by
  have hversion := nextVersion_agrees h
  constructor
  · exact hversion
  · rw [record_modelsOf, record_modelsOf, if_pos ⟨rfl, rfl⟩, if_pos ⟨rfl, rfl⟩, h, hversion]

theorem rollback_value (store : StateStore) (v : ℤ) (now : ℕ) :
    (rollbackModel store x.tenantId x.modelId v now).value =
      ((modelsOf store x.tenantId x.modelId).find? (fun y => y.version == v)).map activated := by
  have hfind : store.models.find? (isVersionOf (normalizeTenant x.tenantId)
      (normalizeModel x.modelId) v) =
      (modelsOf store x.tenantId x.modelId).find? (fun y => y.version == v) := by
    rw [modelsOf, List.find?_filter]
    congr 1
    funext y
    rw [isVersionOf, Bool.and_comm, Bool.decide_and, Bool.and_comm]
    simp [beq_eq_decide]
  unfold rollbackModel
  dsimp only
  rw [hfind]
  cases (modelsOf store x.tenantId x.modelId).find? (fun y => y.version == v) with
  | none => rfl
  | some target => rfl

theorem rolledBack_agrees {store store' : StateStore}
    (h : modelsOf store x.tenantId x.modelId = modelsOf store' x.tenantId x.modelId)
    (v : ℤ) (now : ℕ) :
    (rollbackModel store x.tenantId x.modelId v now).value =
      (rollbackModel store' x.tenantId x.modelId v now).value ∧
    modelsOf (rollbackModel store x.tenantId x.modelId v now).store x.tenantId x.modelId =
      modelsOf (rollbackModel store' x.tenantId x.modelId v now).store x.tenantId x.modelId := by
  have hvalue : (rollbackModel store x.tenantId x.modelId v now).value =
      (rollbackModel store' x.tenantId x.modelId v now).value := by
    rw [rollback_value, rollback_value, h]
  constructor
  · exact hvalue
  · rw [rollback_modelsOf, rollback_modelsOf, hvalue, h]

theorem SameClients.inserted (h : SameClients x g g') (key : String) (info : ClientInfo) :
    SameClients x (g.insert key info) (g'.insert key info) := by
  intro c hc
  by_cases hkey : clientKey x.tenantId x.modelId c = key
  · rw [hkey, AList.lookup_insert, AList.lookup_insert]
  · rw [AList.lookup_insert_ne hkey, AList.lookup_insert_ne hkey]
    exact h c hc

theorem SameClients.registered (h : SameClients x g g') {info : ClientInfo}
    (hscope : info.tenantId = x.tenantId ∧ info.modelId = x.modelId)
    (hc : Accepted info.clientId) :
    (register g info).1 = (register g' info).1 ∧
      SameClients x (register g info).2 (register g' info).2 := by
  have hkey : g.lookup (clientKey info.tenantId info.modelId info.clientId) =
      g'.lookup (clientKey info.tenantId info.modelId info.clientId) := by
    rw [hscope.1, hscope.2]
    exact h _ hc
  simp only [register, hkey]
  cases g'.lookup (clientKey info.tenantId info.modelId info.clientId) with
  | none => exact ⟨rfl, h.inserted _ _⟩
  | some other => exact ⟨rfl, h⟩

theorem SameClients.bound (h : SameClients x g g') {c : String} (hc : Accepted c) (p : String) :
    (bindPeerIdentityIfMissing g x.tenantId x.modelId c p).1 =
        (bindPeerIdentityIfMissing g' x.tenantId x.modelId c p).1 ∧
      SameClients x (bindPeerIdentityIfMissing g x.tenantId x.modelId c p).2
        (bindPeerIdentityIfMissing g' x.tenantId x.modelId c p).2 := by
  simp only [bindPeerIdentityIfMissing, h c hc]
  cases g'.lookup (clientKey x.tenantId x.modelId c) with
  | none => exact ⟨rfl, h⟩
  | some info =>
    dsimp only
    split
    · exact ⟨rfl, h.inserted _ _⟩
    · exact ⟨rfl, h⟩

theorem SameClients.active (h : SameClients x g g') {c : String} (hc : Accepted c) (r : ℤ) :
    SameClients x (updateLastActiveRound g x.tenantId x.modelId c r)
      (updateLastActiveRound g' x.tenantId x.modelId c r) := by
  simp only [updateLastActiveRound, h c hc]
  cases g'.lookup (clientKey x.tenantId x.modelId c) with
  | none => exact h
  | some info => exact h.inserted _ _

theorem sameScope_added (h : SameScope cfg.checkpointDir x w w') (P : Primitives)
    (clientId : String) (round datasetSize : ℤ) (weights : List F) (requiredClients : ℕ)
    (draw : Draw F) (now : ℕ) :
    (performCall P cfg x w (.addWeightAndCheckAggregate clientId round datasetSize weights
        requiredClients draw now)).2 =
      (performCall P cfg x w' (.addWeightAndCheckAggregate clientId round datasetSize weights
        requiredClients draw now)).2 ∧
    SameScope cfg.checkpointDir x
      (performCall P cfg x w (.addWeightAndCheckAggregate clientId round datasetSize weights
        requiredClients draw now)).1
      (performCall P cfg x w' (.addWeightAndCheckAggregate clientId round datasetSize weights
        requiredClients draw now)).1 := by
  let q : Submission F := ⟨x.tenantId, x.modelId, clientId, round, datasetSize, weights,
    requiredClients⟩
  have hadded := h.rounds.added h.files P w.crypto (q := q) ⟨rfl, rfl⟩ draw
  rw [h.crypto] at hadded
  simp only [performCall, addWeightAndCheckAggregate, h.crypto]
  change SameAttempt _ _ (addWeight P cfg w'.crypto w.files w.buffer q draw)
    (addWeight P cfg w'.crypto w'.files w'.buffer q draw) at hadded
  generalize addWeight P cfg w'.crypto w.files w.buffer q draw = o at *
  generalize addWeight P cfg w'.crypto w'.files w'.buffer q draw = o' at *
  obtain ⟨b, files, attempt⟩ := o
  obtain ⟨b', files', attempt'⟩ := o'
  obtain ⟨hattempt, hrounds, hfiles⟩ := hadded
  obtain rfl : attempt = attempt' := hattempt
  cases attempt with
  | returned outcome => exact ⟨rfl, h.clients, hrounds, h.models, hfiles, rfl⟩
  | prepared p =>
    obtain ⟨hversion, hmodels⟩ := recorded_agrees h.models round p.checkpointPath
      cfg.aggregationStrategy w'.crypto.activeKeyVersion p.clientCount p.result.length now
    dsimp only
    rw [hversion]
    refine ⟨rfl, h.clients, ?_, hmodels, hfiles, rfl⟩
    exact hrounds.published ⟨rfl, rfl⟩ p.result _

theorem sameScope_agrees (h : SameScope cfg.checkpointDir x w w') (P : Primitives)
    (call : ScopeCall F) :
    (performCall P cfg x w call).2 = (performCall P cfg x w' call).2 ∧
      SameScope cfg.checkpointDir x (performCall P cfg x w call).1
        (performCall P cfg x w' call).1 := by
  cases call with
  | register info hc =>
    let own : ClientInfo := { info with tenantId := x.tenantId, modelId := x.modelId }
    have hown : own.tenantId = x.tenantId ∧ own.modelId = x.modelId := ⟨rfl, rfl⟩
    obtain ⟨hvalue, hclients⟩ := h.clients.registered hown hc
    exact ⟨congrArg Answer.verdict hvalue, hclients, h.rounds, h.models, h.files, h.crypto⟩
  | isRegistered c hc =>
    refine ⟨?_, h⟩
    simp only [performCall, isRegistered, h.clients c hc]
  | isRegisteredForPeer c p hc =>
    refine ⟨?_, h⟩
    simp only [performCall, isRegisteredForPeer, h.clients c hc]
  | bindPeerIdentityIfMissing c p hc =>
    obtain ⟨hvalue, hclients⟩ := h.clients.bound hc p
    exact ⟨congrArg Answer.verdict hvalue, hclients, h.rounds, h.models, h.files, h.crypto⟩
  | updateLastActiveRound c r hc =>
    exact ⟨rfl, h.clients.active hc r, h.rounds, h.models, h.files, h.crypto⟩
  | isRoundCompleted r =>
    refine ⟨?_, h⟩
    simp only [performCall, isRoundCompleted, h.rounds.completed r]
  | hasClientSubmission r c =>
    refine ⟨?_, h⟩
    simp only [performCall, hasClientSubmission_eq, h.rounds.pending r]
  | getNumClients r =>
    refine ⟨?_, h⟩
    simp only [performCall, getNumClients_eq, h.rounds.pending r]
  | addWeightAndCheckAggregate c r n weights required draw now =>
    exact sameScope_added h P c r n weights required draw now
  | getLatestGlobalModel =>
    refine ⟨?_, h⟩
    simp only [performCall, getLatestGlobalModel, h.rounds.latest]
  | getActiveModelVersion =>
    refine ⟨?_, h⟩
    simp only [performCall, getActiveModelVersion, getActiveModelRecord_eq, h.models]
  | rollbackModel v now =>
    obtain ⟨hvalue, hmodels⟩ := rolledBack_agrees h.models v now
    exact ⟨congrArg Answer.target hvalue, h.clients, h.rounds, hmodels, h.files, h.crypto⟩
  | readCheckpoint r =>
    refine ⟨?_, h⟩
    simp only [performCall, readCheckpoint, h.files r, h.crypto]
  | restoreLatestGlobalModel r v weights =>
    refine ⟨rfl, h.clients, ⟨h.rounds.completed, h.rounds.pending, h.rounds.sizes, ?_,
      h.rounds.velocity⟩, h.models, h.files, h.crypto⟩
    simp only [performCall, restoreLatestGlobalModel, AList.lookup_insert]

theorem Scope.valid (x : Scope) {c : String} (hc : Accepted c) :
    validateFederatedRequestIds x.tenantId x.modelId c = "" :=
  validateFederatedRequestIds_eq_empty.mpr ⟨⟨x.tenant.short, x.tenant.allowed⟩,
    ⟨x.model.short, x.model.allowed⟩, hc.nonempty, hc.short, hc.allowed⟩

theorem Apart.clientKey_ne (h : Apart y x) {c c' : String} (hc : Accepted c) (hc' : Accepted c') :
    clientKey x.tenantId x.modelId c ≠ clientKey y.tenantId y.modelId c' :=
  fun he => h ((keysOverlap_iff (y.valid hc') (x.valid hc')).mpr
    ⟨c', c, y.valid hc', x.valid hc, he.symm⟩)

theorem Apart.path_ne (h : Apart y x) (dir : String) (r r' : ℤ) :
    resolvePath (checkpointPath dir x.tenantId x.modelId r) ≠
      resolvePath (checkpointPath dir y.tenantId y.modelId r') := by
  have hdir : ∀ z : Scope, resolvePath (scopedDir dir z.tenantId z.modelId) =
      z.modelId.toList :: z.tenantId.toList :: resolvePath dir := by
    intro z
    rw [resolvePath_scopedDir (by rw [z.tenant.tenant]; exact z.tenant)
      (by rw [z.model.model]; exact z.model), z.tenant.tenant, z.model.model,
      z.tenant.follow_name z.tenantNames, z.model.follow_name z.modelNames]
  intro hpath
  rw [resolvePath_checkpointPath, resolvePath_checkpointPath, hdir, hdir] at hpath
  obtain ⟨hmodel, hrest⟩ := List.cons.inj (List.cons.inj hpath).2
  have htenant := (List.cons.inj hrest).1
  apply h.scopeKey_ne
  rw [String.toList_inj.mp hmodel, String.toList_inj.mp htenant]

theorem Apart.inserted (h : Apart y x) {q : Submission F} (hq : Within y q) (b : WeightBuffer F)
    (clipNorm : F) : SameRounds x (insertSubmission b clipNorm q) b where
  completed _ := Iff.rfl
  pending r := by
    rw [submissions_insertSubmission, if_neg (by rw [hq.1, hq.2]; exact h.roundKey_ne r _)]
  sizes r := by
    rw [BufferHistories.datasetSizes_insertSubmission,
      if_neg (by rw [hq.1, hq.2]; exact h.roundKey_ne r _)]
  latest := rfl
  velocity := rfl

theorem Apart.computed (h : Apart y x) {q : Submission F} (hq : Within y q) (b : WeightBuffer F)
    (cfg : AggregationConfig F) (noise overflow : ℕ → F) :
    SameRounds x (computeAggregate b cfg q noise overflow).1 b := by
  simp only [computeAggregate, hq.1, hq.2]
  unfold smooth
  split
  · exact sameRounds_refl x b
  · split
    · exact ⟨fun _ => Iff.rfl, fun _ => rfl, fun _ => rfl, rfl, AList.lookup_insert_ne h.scopeKey_ne⟩
    · exact sameRounds_refl x b

theorem Apart.attempted (h : Apart y x) {q : Submission F} (hq : Within y q)
    {b b' : WeightBuffer F} {noise overflow : ℕ → F} {accepted : Bool}
    (hattempt : RejectedAttempts.Attempted cfg b q noise overflow b' accepted) :
    SameRounds x b' b := by
  have hinserted := h.inserted hq b cfg.clipNorm
  have hcomputed :=
    (h.computed hq (insertSubmission b cfg.clipNorm q) cfg noise overflow).trans hinserted
  cases hattempt with
  | late _ => exact sameRounds_refl x b
  | waiting _ => exact hinserted
  | invalid _ _ => exact (h.removed hq _).trans hinserted
  | unwritten _ _ => exact (h.removed hq _).trans hcomputed
  | aggregated _ result version => exact (h.published hq _ result version).trans hcomputed

theorem Apart.added (h : Apart y x) (w : World F) (P : Primitives) (clientId : String)
    (round datasetSize : ℤ) (weights : List F) (requiredClients : ℕ) (draw : Draw F) (now : ℕ) :
    SameScope cfg.checkpointDir x
      (performCall P cfg y w (.addWeightAndCheckAggregate clientId round datasetSize weights
        requiredClients draw now)).1 w := by
  let q : Submission F := ⟨y.tenantId, y.modelId, clientId, round, datasetSize, weights,
    requiredClients⟩
  have hrounds := h.attempted (q := q) ⟨rfl, rfl⟩
    (RejectedAttempts.attempt_cases P cfg w.crypto w.files w.store w.buffer q draw now)
  have hfiles : SameFiles cfg.checkpointDir x
      (addWeight P cfg w.crypto w.files w.buffer q draw).2.1 w.files := by
    intro r
    by_contra hpath
    exact h.path_ne _ _ _ (addWeight_file P cfg w.crypto w.files w.buffer q draw hpath)
  simp only [performCall]
  change SameRounds x (addWeightAndCheckAggregate P cfg w.crypto w.files w.store w.buffer q draw
    now).1 w.buffer at hrounds
  unfold addWeightAndCheckAggregate at hrounds ⊢
  generalize addWeight P cfg w.crypto w.files w.buffer q draw = o at *
  obtain ⟨b, files, attempt⟩ := o
  cases attempt with
  | returned outcome => exact ⟨fun _ _ => rfl, hrounds, rfl, hfiles, rfl⟩
  | prepared p =>
    refine ⟨fun _ _ => rfl, hrounds, ?_, hfiles, rfl⟩
    exact (record_modelsOf _ _ _ _ _ _ _ _ _ _ _ _).trans (if_neg h.models)

theorem Apart.silent (h : Apart y x) (w : World F) (P : Primitives) (call : ScopeCall F) :
    SameScope cfg.checkpointDir x (performCall P cfg y w call).1 w := by
  have hsame := (sameScope_equivalence cfg.checkpointDir x).refl w
  cases call with
  | register info hc' =>
    refine ⟨fun c hc => ?_, hsame.rounds, rfl, hsame.files, rfl⟩
    exact (register_lookup _ _ _).trans (if_neg (fun hkey => h.clientKey_ne hc hc' hkey.1))
  | isRegistered c hc => exact hsame
  | isRegisteredForPeer c p hc => exact hsame
  | bindPeerIdentityIfMissing c' p hc' =>
    refine ⟨fun c hc => ?_, hsame.rounds, rfl, hsame.files, rfl⟩
    simp only [performCall, bindPeerIdentityIfMissing]
    cases w.registry.lookup (clientKey y.tenantId y.modelId c') with
    | none => rfl
    | some info =>
      dsimp only
      split
      · exact AList.lookup_insert_ne (h.clientKey_ne hc hc')
      · rfl
  | updateLastActiveRound c' r hc' =>
    refine ⟨fun c hc => ?_, hsame.rounds, rfl, hsame.files, rfl⟩
    simp only [performCall, updateLastActiveRound]
    cases w.registry.lookup (clientKey y.tenantId y.modelId c') with
    | none => rfl
    | some info => exact AList.lookup_insert_ne (h.clientKey_ne hc hc')
  | isRoundCompleted r => exact hsame
  | hasClientSubmission r c => exact hsame
  | getNumClients r => exact hsame
  | addWeightAndCheckAggregate c r n weights required draw now =>
    exact h.added w P c r n weights required draw now
  | getLatestGlobalModel => exact hsame
  | getActiveModelVersion => exact hsame
  | rollbackModel v now =>
    refine ⟨hsame.clients, hsame.rounds, ?_, hsame.files, rfl⟩
    exact (rollback_modelsOf _ _ _ _ _ _ _).trans (if_neg (fun hboth => h.models hboth.1))
  | readCheckpoint r => exact hsame
  | restoreLatestGlobalModel r v weights =>
    refine ⟨hsame.clients, ⟨fun _ => Iff.rfl, fun _ => rfl, fun _ => rfl, ?_, rfl⟩, rfl,
      hsame.files, rfl⟩
    exact AList.lookup_insert_ne h.scopeKey_ne

theorem sameScope_rotated (h : SameScope dir x w w') (P : Primitives) (cfg : AggregationConfig F)
    (keyBytes : Key) :
    (perform P cfg w (.rotateMasterKey keyBytes)).2 =
        (perform P cfg w' (.rotateMasterKey keyBytes)).2 ∧
      SameScope dir x (perform P cfg w (.rotateMasterKey keyBytes)).1
        (perform P cfg w' (.rotateMasterKey keyBytes)).1 := by
  unfold perform rotateMasterKey
  rw [h.crypto]
  by_cases hfits : w'.crypto.activeKeyVersion + 1 < 2^31
  · simp only [hfits, if_true]
    exact ⟨trivial, h.clients, h.rounds, h.models, h.files, rfl⟩
  · simp only [hfits, if_false]
    exact ⟨trivial, h⟩

/-- The calls beside which a scope is served. -/
def Beside (x : Scope) : SharedCall F → Prop
  | .inScope y _ => y = x ∨ Apart y x
  | .rotateMasterKey _ => True

theorem scopes_unwind (P : Primitives) (cfg : AggregationConfig F) (x : Scope) :
    Unwinds (perform P cfg) (concerns x) (Beside x) (SameScope cfg.checkpointDir x) where
  equivalence := sameScope_equivalence cfg.checkpointDir x
  silent w call hbeside hother := by
    cases call with
    | inScope y call =>
      have hne : y ≠ x := of_decide_eq_false hother
      exact (hbeside.resolve_left hne).silent w P call
    | rotateMasterKey keyBytes => cases hother
  agrees w w' call _ hown hsame := by
    cases call with
    | inScope y call =>
      obtain rfl : y = x := of_decide_eq_true hown
      exact sameScope_agrees hsame P call
    | rotateMasterKey keyBytes => exact sameScope_rotated hsame P cfg keyBytes

/-- In every run of the shared objects a scope gets the answers, and is left
with the records, rounds, models and checkpoints, of a server to which only its
own calls were made, whatever was called in scopes apart from it. -/
theorem scopes_private (P : Primitives) (cfg : AggregationConfig F) (x : Scope) (w w' : World F)
    (hsame : SameScope cfg.checkpointDir x w w') (calls : List (SharedCall F))
    (hcalls : ∀ call ∈ calls, Beside x call) :
    answers (perform P cfg) (concerns x) w calls =
        answers (perform P cfg) (concerns x) w' (calls.filter (concerns x)) ∧
      SameScope cfg.checkpointDir x (finish (perform P cfg) w calls)
        (finish (perform P cfg) w' (calls.filter (concerns x))) :=
  (scopes_unwind P cfg x).purge hcalls hsame

end

def hospital : Scope where
  tenantId := "hospital"
  modelId := "scan"
  tenant := ⟨by decide, by decide, by decide⟩
  model := ⟨by decide, by decide, by decide⟩
  tenantNames := ⟨by decide, by decide⟩
  modelNames := ⟨by decide, by decide⟩

def clinic : Scope where
  tenantId := "clinic"
  modelId := "scan"
  tenant := ⟨by decide, by decide, by decide⟩
  model := ⟨by decide, by decide, by decide⟩
  tenantNames := ⟨by decide, by decide⟩
  modelNames := ⟨by decide, by decide⟩

/-- Two tenants whose clients go by the same name, one of them with a round. -/
def hospitalCalls : List (SharedCall Binary32) := [
  .inScope hospital (.register ⟨"", "", "a", "site", 1, "", "", "", -1⟩
    ⟨by decide, by decide, by decide⟩),
  .inScope clinic (.isRegistered "a" ⟨by decide, by decide, by decide⟩),
  .rotateMasterKey zeroKey,
  .inScope hospital (.addWeightAndCheckAggregate "a" 1 1 [Arith.ofInt 1] 1 (calm 0).draw 0),
  .inScope clinic .getActiveModelVersion,
  .inScope clinic (.isRoundCompleted 1)]

theorem scopes_private_hospitals :
    answers (perform standInPrimitives standardDeployment.config.toAggregationConfig)
        (concerns clinic) (initial standardDeployment firstStart).world hospitalCalls =
      answers (perform standInPrimitives standardDeployment.config.toAggregationConfig)
        (concerns clinic) (initial standardDeployment firstStart).world
        (hospitalCalls.filter (concerns clinic)) ∧
    SameScope standardDeployment.config.checkpointDir clinic
      (finish (perform standInPrimitives standardDeployment.config.toAggregationConfig)
        (initial standardDeployment firstStart).world hospitalCalls)
      (finish (perform standInPrimitives standardDeployment.config.toAggregationConfig)
        (initial standardDeployment firstStart).world
        (hospitalCalls.filter (concerns clinic))) := by
  have hapart : Apart hospital clinic := by
    unfold Apart
    decide
  apply scopes_private
  · exact (sameScope_equivalence _ _).refl _
  · intro call hcall
    simp only [hospitalCalls, List.mem_cons, List.not_mem_nil, or_false] at hcall
    rcases hcall with rfl | rfl | rfl | rfl | rfl | rfl
    · exact .inr hapart
    · exact .inl rfl
    · trivial
    · exact .inr hapart
    · exact .inl rfl
    · exact .inl rfl

end PqFl.PrivateScopes
