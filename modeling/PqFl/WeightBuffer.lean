import Mathlib.Data.Finmap
import Mathlib.Data.Finset.Insert
import PqFl.Aggregation
import PqFl.NestedMaps
import PqFl.StateStore

/-!
# The weight buffer

The pending submissions, the completed rounds and the latest models of
`weight_buffer.cpp`. `AddWeightAndCheckAggregate` holds the buffer's mutex
throughout but calls the crypto engine and the state store, which other
threads use meanwhile; it is cut at these calls into `addWeight`, which ends
with the checkpoint file, and `publish`, which follows the record in the store.
-/

set_option autoImplicit false

namespace PqFl.Buffer
open PqFl.Identifiers PqFl.Crypto PqFl.Aggregation PqFl.StoreRecords PqFl.NestedMaps

/-- The parts of a path between its slashes. -/
def segments : List Char → List (List Char)
  | [] => [[]]
  | ch::rest =>
    if ch = '/' then [] :: segments rest
    else match segments rest with
      | [] => [[ch]]
      | first::others => (ch::first) :: others

/-- Follows one part of a path from a directory, given by its parts in reverse:
`..` leaves the last name, stays at the root and stacks up where no name is left. -/
def follow (directory : List (List Char)) (part : List Char) : List (List Char) :=
  if part = [] ∨ part = ['.'] then directory
  else if part ≠ ['.', '.'] then part :: directory
  else match directory with
    | [] => [part]
    | last::rest =>
      if last = ['.', '.'] then part :: directory
      else if last = ['/'] then directory
      else rest

/-- The root of an absolute path is a part of its own. -/
def rootOf (path : String) : List (List Char) :=
  if path.toList.head? = some '/' then [['/']] else []

/-- The normal form of a path, as the reversed list of its parts. -/
def resolvePath (path : String) : List (List Char) :=
  (segments path.toList).foldl follow (rootOf path)

/-- `operator/` of `std::filesystem::path` with a relative right side. -/
def joinPath (path part : String) : String :=
  if path = "" ∨ path.toList.getLast? = some '/' then path ++ part else path ++ "/" ++ part

def scopedDir (checkpointDir tenantId modelId : String) : String :=
  joinPath (joinPath checkpointDir (normalizeTenant tenantId)) (normalizeModel modelId)

def checkpointFile (round : ℤ) : String := "global_model_round_" ++ toString round ++ ".bin"

def checkpointPath (checkpointDir tenantId modelId : String) (round : ℤ) : String :=
  joinPath (scopedDir checkpointDir tenantId modelId) (checkpointFile round)

abbrev CheckpointFiles := AList (fun _ : List (List Char) => Bytes)

def readFile (files : CheckpointFiles) (path : String) : Option Bytes :=
  files.lookup (resolvePath path)

variable {F : Type}

structure LatestModelSnapshot (F : Type) where
  round : ℤ := -1
  modelVersion : ℤ := 0
  weights : List F := []

structure WeightBuffer (F : Type) where
  roundWeights : AList (fun _ : String => WeightMap F)
  roundDatasetSizes : AList (fun _ : String => SizeMap)
  completedRounds : Finset String
  latestModels : AList (fun _ : String => LatestModelSnapshot F)
  optimizerVelocity : AList (fun _ : String => List F)

/-- The submissions of a round; the source also creates an empty map where it
uses `operator[]`. -/
def submissions (b : WeightBuffer F) (key : String) : WeightMap F :=
  (b.roundWeights.lookup key).getD ∅

/-- The maps without a client, and without the round once it is empty. -/
def removeSubmissionLocked (b : WeightBuffer F) (key clientId : String) : WeightBuffer F :=
  { b with
    roundWeights := match b.roundWeights.lookup key with
      | none => b.roundWeights
      | some weights =>
        if (weights.erase clientId).entries = [] then b.roundWeights.erase key
        else b.roundWeights.insert key (weights.erase clientId)
    roundDatasetSizes := match b.roundDatasetSizes.lookup key with
      | none => b.roundDatasetSizes
      | some sizes =>
        if (sizes.erase clientId).entries = [] then b.roundDatasetSizes.erase key
        else b.roundDatasetSizes.insert key (sizes.erase clientId) }

def hasClientSubmission (b : WeightBuffer F) (tenantId modelId : String) (round : ℤ)
    (clientId : String) : Bool :=
  match b.roundWeights.lookup (roundKey tenantId modelId round) with
  | none => false
  | some weights => (weights.lookup clientId).isSome

def getNumClients (b : WeightBuffer F) (tenantId modelId : String) (round : ℤ) : ℕ :=
  match b.roundWeights.lookup (roundKey tenantId modelId round) with
  | none => 0
  | some weights => weights.entries.length

theorem hasClientSubmission_eq (b : WeightBuffer F) (t m : String) (r : ℤ) (c : String) :
    hasClientSubmission b t m r c = ((submissions b (roundKey t m r)).lookup c).isSome := by
  unfold hasClientSubmission submissions
  cases b.roundWeights.lookup (roundKey t m r) with
  | none => simp
  | some weights => simp

theorem getNumClients_eq (b : WeightBuffer F) (t m : String) (r : ℤ) :
    getNumClients b t m r = (submissions b (roundKey t m r)).entries.length := by
  unfold getNumClients submissions
  cases b.roundWeights.lookup (roundKey t m r) with
  | none => simp
  | some weights => simp

theorem removeSubmissionLocked_eq (b : WeightBuffer F) (key clientId : String) :
    removeSubmissionLocked b key clientId =
      { b with
        roundWeights := eraseAt b.roundWeights key clientId
        roundDatasetSizes := eraseAt b.roundDatasetSizes key clientId } := by
  unfold removeSubmissionLocked eraseAt
  cases b.roundWeights.lookup key <;> cases b.roundDatasetSizes.lookup key <;> rfl

/-- A round's map that became empty is dropped, which nothing can tell from
keeping it. -/
theorem submissions_removeSubmissionLocked (b : WeightBuffer F) (key clientId key' : String) :
    submissions (removeSubmissionLocked b key clientId) key' =
      if key' = key then (submissions b key').erase clientId else submissions b key' := by
  rw [removeSubmissionLocked_eq]
  have h := innerMap_eraseAt b.roundWeights key key' clientId
  by_cases hkey : key' = key
  · subst hkey
    exact h
  · rw [if_neg hkey] at h ⊢
    exact h

variable [FloatArith F]

structure AggregationAttemptResult where
  accepted : Bool := false
  aggregated : Bool := false
  modelVersion : ℤ := 0
  message : String := ""
  deriving DecidableEq, Repr

def emptyBuffer : WeightBuffer F := ⟨∅, ∅, ∅, ∅, ∅⟩

def datasetSizes (b : WeightBuffer F) (key : String) : SizeMap :=
  (b.roundDatasetSizes.lookup key).getD ∅

def getLatestModelVersionLocked (b : WeightBuffer F) (scope : String) : ℤ :=
  match b.latestModels.lookup scope with
  | none => 0
  | some latest => latest.modelVersion

def isRoundCompleted (b : WeightBuffer F) (tenantId modelId : String) (round : ℤ) : Bool :=
  decide (roundKey tenantId modelId round ∈ b.completedRounds)

def getLatestGlobalModel (b : WeightBuffer F) (tenantId modelId : String) :
    LatestModelSnapshot F :=
  match b.latestModels.lookup (scopeKey tenantId modelId) with
  | none => {}
  | some latest => latest

def restoreLatestGlobalModel (b : WeightBuffer F) (tenantId modelId : String)
    (round modelVersion : ℤ) (weights : List F) : WeightBuffer F :=
  { b with
    latestModels := b.latestModels.insert (scopeKey tenantId modelId)
      ⟨round, modelVersion, weights⟩ }

structure AggregationConfig (F : Type) where
  aggregationStrategy : String
  clipNorm : F
  dpEpsilon : F
  dpDelta : F
  trimmedMeanBeta : F
  serverMomentum : F
  checkpointDir : String

structure Submission (F : Type) where
  tenantId : String
  modelId : String
  clientId : String
  round : ℤ
  datasetSize : ℤ
  weights : List F
  requiredClients : ℕ

/-- How writing the checkpoint goes: the file cannot be opened, is written
only in part, or the encryption throws. -/
inductive Persistence where
  | written | cannotOpen | shortWrite
  | threw (what : String)
  deriving DecidableEq, Repr

/-- What the world adds to one aggregation. -/
structure Draw (F : Type) where
  noise : ℕ → F
  overflow : ℕ → F
  iv : Block 12
  persistence : Persistence

/-- A result whose checkpoint is on disk but which no record names yet. -/
structure Prepared (F : Type) where
  result : List F
  checkpointPath : String
  clientCount : ℕ

inductive Attempt (F : Type) where
  | returned (outcome : AggregationAttemptResult)
  | prepared (p : Prepared F)

/-- The insertion which every submission to an open round makes. -/
def insertSubmission (b : WeightBuffer F) (clipNorm : F) (q : Submission F) : WeightBuffer F :=
  let key := roundKey q.tenantId q.modelId q.round
  { b with
    roundWeights := b.roundWeights.insert key
      ((submissions b key).insert q.clientId (clipWeights q.weights clipNorm))
    roundDatasetSizes := b.roundDatasetSizes.insert key
      ((datasetSizes b key).insert q.clientId (max 1 q.datasetSize)) }

/-- Server momentum, when the scope has a latest model of the same dimension. -/
def smooth (b : WeightBuffer F) (serverMomentum : F) (scope : String) (result : List F) :
    WeightBuffer F × List F :=
  match b.latestModels.lookup scope with
  | none => (b, result)
  | some latest =>
    if latest.weights ≠ [] ∧ latest.weights.length = result.length ∧
        isPositive serverMomentum = true then
      let smoothed := applyMomentum serverMomentum ((b.optimizerVelocity.lookup scope).getD [])
        latest.weights result
      ({ b with optimizerVelocity := b.optimizerVelocity.insert scope smoothed.1 }, smoothed.2)
    else (b, result)

/-- The aggregate of a round and the buffer with its new velocity. -/
def computeAggregate (b : WeightBuffer F) (cfg : AggregationConfig F) (q : Submission F)
    (noise overflow : ℕ → F) : WeightBuffer F × List F :=
  let key := roundKey q.tenantId q.modelId q.round
  let clients := submissions b key
  let result := aggregate overflow cfg.aggregationStrategy cfg.trimmedMeanBeta clients
    (datasetSizes b key)
  let (b, result) := smooth b cfg.serverMomentum (scopeKey q.tenantId q.modelId) result
  (b, if isPositive cfg.dpEpsilon then applyDifferentialPrivacy result cfg.clipNorm cfg.dpEpsilon
    cfg.dpDelta clients.entries.length noise else result)

/-- The refusals after the insertion take the submission out again. -/
def refuse (b : WeightBuffer F) (q : Submission F) (message : String) :
    WeightBuffer F × Attempt F :=
  let b := removeSubmissionLocked b (roundKey q.tenantId q.modelId q.round) q.clientId
  (b, .returned {
    modelVersion := getLatestModelVersionLocked b (scopeKey q.tenantId q.modelId)
    message := message })

/-- Writes the sealed result to its checkpoint file. -/
def persist (P : Primitives) (e : CryptoEngine) (files : CheckpointFiles) (b : WeightBuffer F)
    (cfg : AggregationConfig F) (q : Submission F) (result : List F) (draw : Draw F) :
    WeightBuffer F × CheckpointFiles × Attempt F :=
  let path := checkpointPath cfg.checkpointDir q.tenantId q.modelId q.round
  let clients := submissions b (roundKey q.tenantId q.modelId q.round)
  match draw.persistence with
  | .written => (b, files.insert (resolvePath path)
      (encryptBlob P e draw.iv (floatBytes result)), .prepared ⟨result, path, clients.entries.length⟩)
  | .cannotOpen =>
    let (b, attempt) := refuse b q "Failed to persist encrypted checkpoint"
    (b, files, attempt)
  | .shortWrite =>
    let (b, attempt) := refuse b q "Failed to persist encrypted checkpoint"
    (b, files.erase (resolvePath path), attempt)
  | .threw what =>
    let (b, attempt) := refuse b q ("Aggregation persistence failed: " ++ what)
    (b, files.erase (resolvePath path), attempt)

/-- `AddWeightAndCheckAggregate` up to the call of `RecordAggregatedModel`. -/
def addWeight (P : Primitives) (cfg : AggregationConfig F) (e : CryptoEngine)
    (files : CheckpointFiles) (b : WeightBuffer F) (q : Submission F) (draw : Draw F) :
    WeightBuffer F × CheckpointFiles × Attempt F :=
  let scope := scopeKey q.tenantId q.modelId
  let key := roundKey q.tenantId q.modelId q.round
  if key ∈ b.completedRounds then
    (b, files, .returned {
      modelVersion := getLatestModelVersionLocked b scope
      message := "Round already aggregated" })
  else
    let b := insertSubmission b cfg.clipNorm q
    let clients := submissions b key
    if clients.entries.length < max 1 q.requiredClients then
      (b, files, .returned {
        accepted := true
        modelVersion := getLatestModelVersionLocked b scope
        message := "Weights received, waiting for more clients" })
    else
      let reason := validateWeights clients
      if reason ≠ "" then
        let (b, attempt) := refuse b q ("Aggregation validation failed: " ++ reason)
        (b, files, attempt)
      else
        let (b, result) := computeAggregate b cfg q draw.noise draw.overflow
        persist P e files b cfg q result draw

/-- The end of `AddWeightAndCheckAggregate`, with the version of the record. -/
def publish (b : WeightBuffer F) (q : Submission F) (result : List F) (modelVersion : ℤ) :
    WeightBuffer F × AggregationAttemptResult :=
  ({ b with
      latestModels := b.latestModels.insert (scopeKey q.tenantId q.modelId)
        ⟨q.round, modelVersion, result⟩
      completedRounds := insert (roundKey q.tenantId q.modelId q.round) b.completedRounds },
    { accepted := true
      aggregated := true
      modelVersion := modelVersion
      message := "Aggregation completed for round " ++ toString q.round })

/-- `AddWeightAndCheckAggregate` without interruption. -/
def addWeightAndCheckAggregate (P : Primitives) (cfg : AggregationConfig F) (e : CryptoEngine)
    (files : CheckpointFiles) (store : StateStore) (b : WeightBuffer F) (q : Submission F)
    (draw : Draw F) (now : ℕ) :
    WeightBuffer F × CheckpointFiles × Option (Outcome ℤ) × AggregationAttemptResult :=
  match addWeight P cfg e files b q draw with
  | (b, files, .returned outcome) => (b, files, none, outcome)
  | (b, files, .prepared p) =>
    let recorded := StateStore.recordAggregatedModel store q.tenantId q.modelId q.round
      p.checkpointPath cfg.aggregationStrategy e.activeKeyVersion p.clientCount p.result.length now
    let (b, outcome) := publish b q p.result recorded.value
    (b, files, some recorded, outcome)

theorem insertSubmission_eq (b : WeightBuffer F) (clipNorm : F) (q : Submission F) :
    insertSubmission b clipNorm q =
      { b with
        roundWeights := insertAt b.roundWeights (roundKey q.tenantId q.modelId q.round) q.clientId
          (clipWeights q.weights clipNorm)
        roundDatasetSizes := insertAt b.roundDatasetSizes
          (roundKey q.tenantId q.modelId q.round) q.clientId (max 1 q.datasetSize) } := rfl

theorem submissions_insertSubmission (b : WeightBuffer F) (clipNorm : F) (q : Submission F)
    (key : String) : submissions (insertSubmission b clipNorm q) key =
      if key = roundKey q.tenantId q.modelId q.round then
        (submissions b key).insert q.clientId (clipWeights q.weights clipNorm)
      else submissions b key := by
  have h := innerMap_insertAt b.roundWeights (roundKey q.tenantId q.modelId q.round) key q.clientId
    (clipWeights q.weights clipNorm)
  by_cases hkey : key = roundKey q.tenantId q.modelId q.round
  · subst hkey
    exact h
  · rw [if_neg hkey] at h ⊢
    exact h

/-- Only the pending submissions of one round and the velocities differ. -/
structure SameBut (key : String) (b b' : WeightBuffer F) : Prop where
  completed : b'.completedRounds = b.completedRounds
  latest : b'.latestModels = b.latestModels
  others : ∀ key', key' ≠ key → submissions b' key' = submissions b key'

theorem SameBut.insertSubmission (b : WeightBuffer F) (clipNorm : F) (q : Submission F) :
    SameBut (roundKey q.tenantId q.modelId q.round) b (insertSubmission b clipNorm q) where
  completed := rfl
  latest := rfl
  others key' h := by rw [submissions_insertSubmission, if_neg h]

theorem smooth_velocity (b : WeightBuffer F) (serverMomentum : F) (scope : String)
    (result : List F) : ∃ velocity,
      (smooth b serverMomentum scope result).1 = { b with optimizerVelocity := velocity } := by
  unfold smooth
  split
  · exact ⟨b.optimizerVelocity, rfl⟩
  · split
    · exact ⟨_, rfl⟩
    · exact ⟨b.optimizerVelocity, rfl⟩

theorem computeAggregate_velocity (b : WeightBuffer F) (cfg : AggregationConfig F)
    (q : Submission F) (noise overflow : ℕ → F) : ∃ velocity,
      (computeAggregate b cfg q noise overflow).1 = { b with optimizerVelocity := velocity } :=
  smooth_velocity _ _ _ _

/-- What an attempt comes to: the round was aggregated before, the submission
stays and waits, it is taken out again, or its aggregate is on disk. -/
inductive Added (P : Primitives) (cfg : AggregationConfig F) (e : CryptoEngine)
    (files : CheckpointFiles) (b : WeightBuffer F) (q : Submission F) (draw : Draw F) :
    WeightBuffer F → CheckpointFiles → Attempt F → Prop
  | late {outcome : AggregationAttemptResult}
      (hlate : roundKey q.tenantId q.modelId q.round ∈ b.completedRounds)
      (hout : outcome.accepted = false) : Added P cfg e files b q draw b files (.returned outcome)
  | waiting {b' : WeightBuffer F} {outcome : AggregationAttemptResult}
      (hopen : roundKey q.tenantId q.modelId q.round ∉ b.completedRounds)
      (hsame : SameBut (roundKey q.tenantId q.modelId q.round) b b')
      (hown : submissions b' (roundKey q.tenantId q.modelId q.round) =
        (submissions b (roundKey q.tenantId q.modelId q.round)).insert q.clientId
          (clipWeights q.weights cfg.clipNorm))
      (hout : outcome.accepted = true ∧ outcome.aggregated = false) :
      Added P cfg e files b q draw b' files (.returned outcome)
  | refused {b' : WeightBuffer F} {files' : CheckpointFiles} {outcome : AggregationAttemptResult}
      (hopen : roundKey q.tenantId q.modelId q.round ∉ b.completedRounds)
      (hsame : SameBut (roundKey q.tenantId q.modelId q.round) b b')
      (hown : submissions b' (roundKey q.tenantId q.modelId q.round) =
        (submissions b (roundKey q.tenantId q.modelId q.round)).erase q.clientId)
      (hfiles : files' = files ∨ files' = files.erase (resolvePath
        (checkpointPath cfg.checkpointDir q.tenantId q.modelId q.round)))
      (hout : outcome.accepted = false) : Added P cfg e files b q draw b' files' (.returned outcome)
  | prepared {b' : WeightBuffer F} {p : Prepared F}
      (hopen : roundKey q.tenantId q.modelId q.round ∉ b.completedRounds)
      (hsame : SameBut (roundKey q.tenantId q.modelId q.round) b b')
      (hown : submissions b' (roundKey q.tenantId q.modelId q.round) =
        (submissions b (roundKey q.tenantId q.modelId q.round)).insert q.clientId
          (clipWeights q.weights cfg.clipNorm))
      (hpath : p.checkpointPath = checkpointPath cfg.checkpointDir q.tenantId q.modelId q.round) :
      Added P cfg e files b q draw b' (files.insert (resolvePath p.checkpointPath)
        (encryptBlob P e draw.iv (floatBytes p.result))) (.prepared p)

theorem Added.sameBut {P : Primitives} {cfg : AggregationConfig F} {e : CryptoEngine}
    {files files' : CheckpointFiles} {b b' : WeightBuffer F} {q : Submission F} {draw : Draw F}
    {attempt : Attempt F} (h : Added P cfg e files b q draw b' files' attempt) :
    SameBut (roundKey q.tenantId q.modelId q.round) b b' := by
  cases h with
  | late _ _ => exact ⟨rfl, rfl, fun _ _ => rfl⟩
  | waiting _ hsame _ _ => exact hsame
  | refused _ hsame _ _ _ => exact hsame
  | prepared _ hsame _ _ => exact hsame

theorem Added.mem_submissions {P : Primitives} {cfg : AggregationConfig F} {e : CryptoEngine}
    {files files' : CheckpointFiles} {b b' : WeightBuffer F} {q : Submission F} {draw : Draw F}
    {attempt : Attempt F} (h : Added P cfg e files b q draw b' files' attempt) {key x : String}
    (hx : x ∈ submissions b' key) :
    (key = roundKey q.tenantId q.modelId q.round ∧ x = q.clientId) ∨ x ∈ submissions b key := by
  by_cases hkey : key = roundKey q.tenantId q.modelId q.round
  · subst hkey
    cases h with
    | late _ _ => exact .inr hx
    | waiting _ _ hown _ =>
      rw [hown, AList.mem_insert] at hx
      exact hx.imp (fun hc => ⟨rfl, hc⟩) id
    | refused _ _ hown _ _ =>
      rw [hown, AList.mem_erase] at hx
      exact .inr hx.2
    | prepared _ _ hown _ =>
      rw [hown, AList.mem_insert] at hx
      exact hx.imp (fun hc => ⟨rfl, hc⟩) id
  · rw [h.sameBut.others key hkey] at hx
    exact .inr hx

theorem refuse_added {P : Primitives} {cfg : AggregationConfig F} {e : CryptoEngine}
    {files files' : CheckpointFiles} {b b' : WeightBuffer F} {q : Submission F} {draw : Draw F}
    (hopen : roundKey q.tenantId q.modelId q.round ∉ b.completedRounds)
    (hsame : SameBut (roundKey q.tenantId q.modelId q.round) b b')
    (hown : submissions b' (roundKey q.tenantId q.modelId q.round) =
      (submissions b (roundKey q.tenantId q.modelId q.round)).insert q.clientId
        (clipWeights q.weights cfg.clipNorm))
    (hfiles : files' = files ∨ files' = files.erase (resolvePath
      (checkpointPath cfg.checkpointDir q.tenantId q.modelId q.round))) (message : String) :
    Added P cfg e files b q draw (refuse b' q message).1 files' (refuse b' q message).2 := by
  refine .refused hopen ⟨hsame.completed, hsame.latest, ?_⟩ ?_ hfiles rfl
  · intro key' hk
    rw [refuse, submissions_removeSubmissionLocked, if_neg hk, hsame.others key' hk]
  · rw [refuse, submissions_removeSubmissionLocked, if_pos rfl, hown, erase_insert]

theorem persist_added {P : Primitives} {cfg : AggregationConfig F} {e : CryptoEngine}
    {files : CheckpointFiles} {b b' : WeightBuffer F} {q : Submission F} {draw : Draw F}
    (hopen : roundKey q.tenantId q.modelId q.round ∉ b.completedRounds)
    (hsame : SameBut (roundKey q.tenantId q.modelId q.round) b b')
    (hown : submissions b' (roundKey q.tenantId q.modelId q.round) =
      (submissions b (roundKey q.tenantId q.modelId q.round)).insert q.clientId
        (clipWeights q.weights cfg.clipNorm)) (result : List F) :
    Added P cfg e files b q draw (persist P e files b' cfg q result draw).1
      (persist P e files b' cfg q result draw).2.1
      (persist P e files b' cfg q result draw).2.2 := by
  unfold persist
  cases draw.persistence with
  | written =>
    let p : Prepared F := ⟨result, checkpointPath cfg.checkpointDir q.tenantId q.modelId q.round,
      (submissions b' (roundKey q.tenantId q.modelId q.round)).entries.length⟩
    exact Added.prepared (p := p) hopen hsame hown rfl
  | cannotOpen => exact refuse_added hopen hsame hown (.inl rfl) _
  | shortWrite => exact refuse_added hopen hsame hown (.inr rfl) _
  | threw what => exact refuse_added hopen hsame hown (.inr rfl) _

theorem addWeight_added (P : Primitives) (cfg : AggregationConfig F) (e : CryptoEngine)
    (files : CheckpointFiles) (b : WeightBuffer F) (q : Submission F) (draw : Draw F) :
    Added P cfg e files b q draw (addWeight P cfg e files b q draw).1
      (addWeight P cfg e files b q draw).2.1 (addWeight P cfg e files b q draw).2.2 := by
  by_cases hlate : roundKey q.tenantId q.modelId q.round ∈ b.completedRounds
  · simp only [addWeight, hlate, if_true]
    exact .late hlate rfl
  have hinserted := SameBut.insertSubmission b cfg.clipNorm q
  have hown := submissions_insertSubmission b cfg.clipNorm q (roundKey q.tenantId q.modelId q.round)
  rw [if_pos rfl] at hown
  simp only [addWeight, hlate, if_false]
  split
  · exact .waiting hlate hinserted hown ⟨rfl, rfl⟩
  split
  · exact refuse_added hlate hinserted hown (.inl rfl) _
  obtain ⟨velocity, hv⟩ := computeAggregate_velocity (insertSubmission b cfg.clipNorm q) cfg q
    draw.noise draw.overflow
  have hsame : SameBut (roundKey q.tenantId q.modelId q.round) b
      { insertSubmission b cfg.clipNorm q with optimizerVelocity := velocity } :=
    ⟨hinserted.completed, hinserted.latest, hinserted.others⟩
  rw [hv]
  exact persist_added hlate hsame hown _

end PqFl.Buffer
