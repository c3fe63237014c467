import PqFl.ModelSteps

/-!
# What a submission writes

An aggregation seals its result to a checkpoint file, asks for the key version,
records the model in the store and publishes it in the buffer. Each of these is
a step of its own; every other step of a submission leaves models, checkpoints
and keys alone.
-/

set_option autoImplicit false

namespace PqFl.CheckpointWrites
open PqFl.Identifiers PqFl.StoreRecords PqFl.StateStore PqFl.ListUpdate PqFl.Crypto
open PqFl.Aggregation PqFl.Buffer PqFl.Services PqFl.Process PqFl.ServerStore PqFl.JobSteps
open PqFl.SubmissionTracking PqFl.ModelSteps
open PqFl.StoreRuns (record_models rollback_models)

variable {F : Type} {d : Deployment F} {s s' : Server F}

/-- The handler, if one is left, is not in the middle of an aggregation. -/
def Unlocked (s : Server F) : Prop :=
  ∀ c, submitting s = some c → c.point.locksBuffer = false

theorem afterAttempt_unlocked (cfg : Config F) (job : Option PersistedTrainingJobRecord)
    (result : AggregationAttemptResult) : (afterAttempt cfg job result).locksBuffer = false := by
  unfold afterAttempt
  split
  · cases job with
    | none => rfl
    | some job => rfl
  · rfl

theorem unlocked_of {call : FederatedCall F} (h : s.federated = some call)
    (hcall : ∀ q peer n p, call = .submitWeights q peer n p → p.locksBuffer = false) :
    Unlocked s := by
  intro c hc
  rw [submitting, h] at hc
  cases call with
  | submitWeights q peer n p =>
    obtain rfl := Option.some.inj hc
    exact hcall q peer n p rfl
  | registerClient info p => cases hc
  | trainingConfig q p => cases hc

/-- The objects that a step of a submission may leave alone. -/
structure WorldKept (w w' : World F) : Prop where
  models : w'.store.models = w.store.models
  files : w'.files = w.files
  crypto : w'.crypto = w.crypto
  keyFiles : w'.keyFiles = w.keyFiles
  buffer : w'.buffer = w.buffer

theorem WorldKept.refl (w : World F) : WorldKept w w := ⟨rfl, rfl, rfl, rfl, rfl⟩

theorem WorldKept.after {α : Type} {w : World F} {x : Outcome α}
    (h : x.store.models = w.store.models) : WorldKept w (w.after x) := ⟨h, rfl, rfl, rfl, rfl⟩

variable [FloatArith F]

def SameVersion (x y : PersistedModelRecord) : Prop := y = { x with active := y.active }

theorem SameVersion.refl (x : PersistedModelRecord) : SameVersion x x := rfl

theorem SameVersion.trans {x y z : PersistedModelRecord} (h : SameVersion x y)
    (h' : SameVersion y z) : SameVersion x z := by
  unfold SameVersion at *
  rw [h', h]

theorem SameVersion.symm {x y : PersistedModelRecord} (h : SameVersion x y) : SameVersion y x := by
  unfold SameVersion at *
  rw [h]

theorem sameVersions_of_eq {models models' : List PersistedModelRecord} (h : models' = models) :
    List.Forall₂ SameVersion models models' := by
  rw [h]
  exact List.forall₂_same.mpr (fun y _ => SameVersion.refl y)

theorem deactivate_sameVersion (t m : String) (x : PersistedModelRecord) :
    SameVersion x (deactivate t m x) := by
  unfold deactivate
  split
  · rfl
  · rfl

theorem deactivate_sameVersions (t m : String) (models : List PersistedModelRecord) :
    List.Forall₂ SameVersion models (models.map (deactivate t m)) :=
  forall₂_map _ (deactivate_sameVersion t m) models

theorem rollback_sameVersions (x : StateStore) (t m : String) (v : ℤ) (now : ℕ) :
    List.Forall₂ SameVersion x.models (rollbackModel x t m v now).store.models := by
  rw [rollback_models]
  split
  · have hactivated : List.Forall₂ SameVersion
        (x.models.map (deactivate (normalizeTenant t) (normalizeModel m)))
        (updateFirst (isVersionOf (normalizeTenant t) (normalizeModel m) v)
          (fun y => { y with active := true })
          (x.models.map (deactivate (normalizeTenant t) (normalizeModel m)))) := by
      apply (updateFirst_touched _ _ _).imp
      rintro y z (rfl | ⟨-, rfl⟩)
      · exact .refl _
      · rfl
    have htrans : ∀ y z u, SameVersion y z → SameVersion z u → SameVersion y u :=
      fun _ _ _ h h' => h.trans h'
    exact forall₂_trans htrans (deactivate_sameVersions _ _ _) hactivated
  · exact sameVersions_of_eq rfl

theorem rollback_target {x : StateStore} {t m : String} {v : ℤ} {now : ℕ}
    {target : PersistedModelRecord} (h : (rollbackModel x t m v now).value = some target) :
    ∃ y ∈ x.models, SameVersion y target ∧
      isVersionOf (normalizeTenant t) (normalizeModel m) v y = true := by
  unfold rollbackModel at h
  dsimp only at h
  split at h
  · cases h
  · rename_i y hfound
    obtain rfl := Option.some.inj h
    exact ⟨y, List.mem_of_find?_eq_some hfound, rfl, List.find?_some hfound⟩

/-- The submission completes its round and its aggregate is computed. -/
def Aggregates (cfg : AggregationConfig F) (b : WeightBuffer F) (q : Submission F) : Prop :=
  roundKey q.tenantId q.modelId q.round ∉ b.completedRounds ∧
  max 1 q.requiredClients ≤ (submissions (insertSubmission b cfg.clipNorm q)
    (roundKey q.tenantId q.modelId q.round)).entries.length ∧
  validateWeights (submissions (insertSubmission b cfg.clipNorm q)
    (roundKey q.tenantId q.modelId q.round)) = ""

instance decidableAggregates (cfg : AggregationConfig F) (b : WeightBuffer F) (q : Submission F) :
    Decidable (Aggregates cfg b q) := inferInstanceAs (Decidable (_ ∧ _ ∧ _))

/-- An attempt leaves the files, or it aggregates and writes or removes the
file of the round. -/
inductive FileWrite (P : Primitives) (cfg : AggregationConfig F) (e : CryptoEngine)
    (files : CheckpointFiles) (b : WeightBuffer F) (q : Submission F) (draw : Draw F) :
    CheckpointFiles → Attempt F → Prop
  | none {outcome : AggregationAttemptResult} (hout : outcome.aggregated = false) :
    FileWrite P cfg e files b q draw files (.returned outcome)
  | removed {outcome : AggregationAttemptResult} (haggregates : Aggregates cfg b q)
      (htorn : draw.persistence ≠ .written ∧ draw.persistence ≠ .cannotOpen)
      (hout : outcome.aggregated = false) :
      FileWrite P cfg e files b q draw (files.erase (resolvePath
        (checkpointPath cfg.checkpointDir q.tenantId q.modelId q.round))) (.returned outcome)
  | written {p : Prepared F} (haggregates : Aggregates cfg b q)
      (hwritten : draw.persistence = .written)
      (hpath : p.checkpointPath = checkpointPath cfg.checkpointDir q.tenantId q.modelId q.round) :
      FileWrite P cfg e files b q draw (files.insert (resolvePath p.checkpointPath)
        (encryptBlob P e draw.iv (floatBytes p.result))) (.prepared p)

theorem persist_fileWrite {P : Primitives} {cfg : AggregationConfig F} {e : CryptoEngine}
    {files : CheckpointFiles} {b : WeightBuffer F} {q : Submission F} {draw : Draw F}
    (haggregates : Aggregates cfg b q) (b' : WeightBuffer F) (result : List F) :
    FileWrite P cfg e files b q draw (persist P e files b' cfg q result draw).2.1
      (persist P e files b' cfg q result draw).2.2 := by
  unfold persist
  cases hpersistence : draw.persistence with
  | written =>
    let p : Prepared F := ⟨result, checkpointPath cfg.checkpointDir q.tenantId q.modelId q.round,
      (submissions b' (roundKey q.tenantId q.modelId q.round)).entries.length⟩
    exact FileWrite.written (p := p) haggregates hpersistence rfl
  | cannotOpen => exact .none rfl
  | shortWrite => exact .removed haggregates (by simp [hpersistence]) rfl
  | threw what => exact .removed haggregates (by simp [hpersistence]) rfl

theorem addWeight_fileWrite (P : Primitives) (cfg : AggregationConfig F) (e : CryptoEngine)
    (files : CheckpointFiles) (b : WeightBuffer F) (q : Submission F) (draw : Draw F) :
    FileWrite P cfg e files b q draw (addWeight P cfg e files b q draw).2.1
      (addWeight P cfg e files b q draw).2.2 := by
  by_cases hlate : roundKey q.tenantId q.modelId q.round ∈ b.completedRounds
  · simp only [addWeight, hlate, if_true]
    exact .none rfl
  simp only [addWeight, hlate, if_false]
  split
  · exact .none rfl
  rename_i henough
  split
  · exact .none rfl
  rename_i hvalid
  exact persist_fileWrite ⟨hlate, not_lt.mp henough, not_not.mp hvalid⟩ _ _

/-- Models, checkpoints and keys, with the handlers that may change them. -/
structure ModelView (F : Type) where
  models : List PersistedModelRecord
  files : CheckpointFiles
  crypto : CryptoEngine
  keyFiles : KeyFiles
  latest : AList (fun _ : String => LatestModelSnapshot F)
  completed : Finset String
  boot : List PersistedModelRecord
  calls : List (Call F)
  events : List (Event F)

def modelView (s : Server F) : ModelView F where
  models := s.world.store.models
  files := s.world.files
  crypto := s.world.crypto
  keyFiles := s.world.keyFiles
  latest := s.world.buffer.latestModels
  completed := s.world.buffer.completedRounds
  boot := s.boot
  calls := s.calls
  events := modelEvents s

/-- What the handler of a submission does to models, checkpoints and keys. -/
inductive SubmitStep (d : Deployment F) (s : Server F) (c : Submitting F) (o : Oracle F) :
    Server F → Prop
  | on {s' : Server F} (hpoint : c.point.locksBuffer = false) (hview : modelView s' = modelView s)
      (hnext : Unlocked s') : SubmitStep d s c o s'
  | removed {s' : Server F} {job : Option PersistedTrainingJobRecord} {weights : List F}
      (hpoint : c.point = .add job weights)
      (haggregates : Aggregates d.config.toAggregationConfig s.world.buffer
        (submission d.config c.q job weights))
      (htorn : o.draw.persistence ≠ .written ∧ o.draw.persistence ≠ .cannotOpen)
      (hview : modelView s' = { modelView s with
        files := s.world.files.erase (resolvePath (checkpointPath d.config.checkpointDir
          (normalizeTenant c.q.tenantId) (normalizeModel c.q.modelId) c.q.roundIndex)) })
      (hnext : Unlocked s') : SubmitStep d s c o s'
  | written {s' : Server F} {job : Option PersistedTrainingJobRecord} {weights : List F}
      {p : Prepared F} (hpoint : c.point = .add job weights)
      (haggregates : Aggregates d.config.toAggregationConfig s.world.buffer
        (submission d.config c.q job weights))
      (hwritten : o.draw.persistence = .written)
      (hpath : p.checkpointPath = checkpointPath d.config.checkpointDir
        (normalizeTenant c.q.tenantId) (normalizeModel c.q.modelId) c.q.roundIndex)
      (hview : modelView s' = { modelView s with
        files := s.world.files.insert (resolvePath p.checkpointPath)
          (encryptBlob d.primitives s.world.crypto o.draw.iv (floatBytes p.result)) })
      (hnext : submitting s' = some { c with point := .keyVersion job p }) : SubmitStep d s c o s'
  | keyVersion {s' : Server F} {job : Option PersistedTrainingJobRecord} {p : Prepared F}
      (hpoint : c.point = .keyVersion job p) (hview : modelView s' = modelView s)
      (hnext : submitting s' = some { c with
        point := .record job p s.world.crypto.activeKeyVersion }) : SubmitStep d s c o s'
  | recorded {s' : Server F} {job : Option PersistedTrainingJobRecord} {p : Prepared F} {v : ℤ}
      (hpoint : c.point = .record job p v)
      (hview : modelView s' = { modelView s with
        models := s.world.store.models.map (deactivate (normalizeTenant c.q.tenantId)
            (normalizeModel c.q.modelId)) ++
          [⟨normalizeTenant c.q.tenantId, normalizeModel c.q.modelId,
            nextVersion s.world.store.models (normalizeTenant c.q.tenantId)
              (normalizeModel c.q.modelId),
            c.q.roundIndex, p.checkpointPath, d.config.aggregationStrategy, v, p.clientCount,
            p.result.length, true, Timestamps.currentTimestamp o.now⟩]
        events := modelEvents s ++ [.recorded (normalizeTenant c.q.tenantId)
          (normalizeModel c.q.modelId) c.q.roundIndex (nextVersion s.world.store.models
            (normalizeTenant c.q.tenantId) (normalizeModel c.q.modelId)) p.result] })
      (hnext : submitting s' = some { c with
        point := .publish job p (nextVersion s.world.store.models (normalizeTenant c.q.tenantId)
          (normalizeModel c.q.modelId)) }) : SubmitStep d s c o s'
  | published {s' : Server F} {job : Option PersistedTrainingJobRecord} {p : Prepared F} {v : ℤ}
      (hpoint : c.point = .publish job p v)
      (hview : modelView s' = { modelView s with
        latest := s.world.buffer.latestModels.insert (scopeKey (normalizeTenant c.q.tenantId)
          (normalizeModel c.q.modelId)) ⟨c.q.roundIndex, v, p.result⟩
        completed := insert (roundKey (normalizeTenant c.q.tenantId) (normalizeModel c.q.modelId)
          c.q.roundIndex) s.world.buffer.completedRounds })
      (hnext : Unlocked s') : SubmitStep d s c o s'

theorem proceedSubmit_events {q : SubmitWeightsRequest} {peer : Peer} {serial : ℕ} {o : Oracle F}
    {p : SubmitPoint F} : modelEvents (proceedSubmit d s q peer serial o p) =
      modelEvents s ++ (observe d s q peer serial o p).filter isModelEvent :=
  modelEvents_append rfl rfl

theorem observe_events {q : SubmitWeightsRequest} {peer : Peer} {serial : ℕ} {o : Oracle F}
    {p : SubmitPoint F} (h : ∀ job pr v, p ≠ .record job pr v) :
    (observe d s q peer serial o p).filter isModelEvent = [] := by
  cases p with
  | record job pr v => exact absurd rfl (h job pr v)
  | roundCheck current job =>
    simp only [observe]
    split
    · rfl
    · rfl
  | duplicateCheck current job =>
    simp only [observe]
    split
    · rfl
    · rfl
  | accept job result =>
    simp only [observe]
    split
    · rfl
    · rfl
  | respond response countClients => rfl
  | _ => rfl

def afterAdd (cfg : Config F) (job : Option PersistedTrainingJobRecord) :
    Attempt F → SubmitPoint F
  | .returned result => afterAttempt cfg job result
  | .prepared p => .keyVersion job p

theorem add_submitStep {c : Submitting F} {o : Oracle F} {job : Option PersistedTrainingJobRecord}
    {weights : List F} (hpoint : c.point = .add job weights) :
    SubmitStep d s c o (proceedSubmit d s c.q c.peer c.serial o c.point) := by
  rw [hpoint]
  have hadded := addWeight_added d.primitives d.config.toAggregationConfig s.world.crypto
    s.world.files s.world.buffer (submission d.config c.q job weights) o.draw
  have hwrite := addWeight_fileWrite d.primitives d.config.toAggregationConfig s.world.crypto
    s.world.files s.world.buffer (submission d.config c.q job weights) o.draw
  have hview : modelView (proceedSubmit d s c.q c.peer c.serial o (.add job weights)) =
      { modelView s with
        files := (addWeight d.primitives d.config.toAggregationConfig s.world.crypto s.world.files
          s.world.buffer (submission d.config c.q job weights) o.draw).2.1 } := by
    have hsame := hadded.sameBut
    simp only [modelView, proceedSubmit_events, observe_events (p := .add job weights) (by simp),
      List.append_nil]
    simp only [proceedSubmit, stepSubmitWeights, hsame.latest, hsame.completed]
  have hnext : (proceedSubmit d s c.q c.peer c.serial o (.add job weights)).federated =
      some (.submitWeights c.q c.peer c.serial (afterAdd d.config job (addWeight d.primitives
        d.config.toAggregationConfig s.world.crypto s.world.files s.world.buffer
        (submission d.config c.q job weights) o.draw).2.2)) := rfl
  generalize addWeight d.primitives d.config.toAggregationConfig s.world.crypto s.world.files
    s.world.buffer (submission d.config c.q job weights) o.draw = attempt at hwrite hview hnext
  obtain ⟨b, files, attempt⟩ := attempt
  cases hwrite with
  | none hout =>
    apply SubmitStep.on (by rw [hpoint]; rfl) hview
    apply unlocked_of hnext
    rintro _ _ _ _ ⟨⟩
    exact afterAttempt_unlocked _ _ _
  | removed haggregates htorn hout =>
    apply SubmitStep.removed hpoint haggregates htorn hview
    apply unlocked_of hnext
    rintro _ _ _ _ ⟨⟩
    exact afterAttempt_unlocked _ _ _
  | written haggregates hwritten hpath =>
    apply SubmitStep.written hpoint haggregates hwritten hpath hview
    rw [submitting, hnext]
    rfl

theorem unlocked_step {q : SubmitWeightsRequest} {peer : Peer} {serial : ℕ} {o : Oracle F}
    {p : SubmitPoint F}
    (h : ∀ p', (stepSubmitWeights d s.world q peer o p).2 = .inl p' → p'.locksBuffer = false) :
    Unlocked (proceedSubmit d s q peer serial o p) := by
  intro c hc
  unfold proceedSubmit at hc
  dsimp only [submitting] at hc
  cases hnext : (stepSubmitWeights d s.world q peer o p).2 with
  | inl p' =>
    rw [hnext] at hc
    obtain rfl := Option.some.inj hc
    exact h p' hnext
  | inr response =>
    rw [hnext] at hc
    cases hc

theorem on_submitStep {q : SubmitWeightsRequest} {peer : Peer} {serial : ℕ} {o : Oracle F}
    {p : SubmitPoint F} (hpoint : p.locksBuffer = false)
    (hworld : WorldKept s.world (stepSubmitWeights d s.world q peer o p).1)
    (hnext : ∀ p', (stepSubmitWeights d s.world q peer o p).2 = .inl p' → p'.locksBuffer = false) :
    SubmitStep d s ⟨q, peer, serial, p⟩ o (proceedSubmit d s q peer serial o p) := by
  have hrecord : ∀ job pr v, p ≠ .record job pr v := by
    rintro job pr v rfl
    cases hpoint
  apply SubmitStep.on hpoint
  · have hevents : modelEvents (proceedSubmit d s q peer serial o p) =
        modelEvents s ++ (observe d s q peer serial o p).filter isModelEvent := proceedSubmit_events
    rw [observe_events hrecord, List.append_nil] at hevents
    simp only [modelView, hevents]
    simp only [proceedSubmit, hworld.models, hworld.files, hworld.crypto, hworld.keyFiles,
      hworld.buffer]
  · exact unlocked_step hnext

theorem proceed_submitStep (c : Submitting F) (o : Oracle F) :
    SubmitStep d s c o (proceedSubmit d s c.q c.peer c.serial o c.point) := by
  obtain ⟨q, peer, serial, p⟩ := c
  have hevents : modelEvents (proceedSubmit d s q peer serial o p) =
      modelEvents s ++ (observe d s q peer serial o p).filter isModelEvent := proceedSubmit_events
  cases p with
  | modelVersion =>
    apply on_submitStep rfl (.refl _)
    rintro p' ⟨⟩
    split
    · rfl
    · rfl
  | activeJob current =>
    apply on_submitStep rfl
    · unfold stepSubmitWeights
      dsimp only
      split
      · exact .refl _
      · exact .refl _
    · intro p' hp'
      unfold stepSubmitWeights at hp'
      dsimp only at hp'
      split at hp'
      · obtain rfl := Sum.inl.inj hp'
        rfl
      · obtain rfl := Sum.inl.inj hp'
        rfl
  | validate current job =>
    apply on_submitStep rfl
    · exact .after (validateTrainingAssignmentSubmission_frame _ _ _ _ _ _ _ _ _).2
    · rintro p' ⟨⟩
      split
      · rfl
      · rfl
  | roundCheck current job =>
    apply on_submitStep rfl (.refl _)
    rintro p' ⟨⟩
    split
    · rfl
    · rfl
  | duplicateCheck current job =>
    apply on_submitStep rfl (.refl _)
    rintro p' ⟨⟩
    split
    · rfl
    · rfl
  | decrypt job =>
    apply on_submitStep rfl
    · unfold stepSubmitWeights
      dsimp only
      split
      · exact .refl _
      · exact ⟨rfl, rfl, rfl, rfl, rfl⟩
    · intro p' hp'
      unfold stepSubmitWeights at hp'
      dsimp only at hp'
      split at hp'
      · obtain rfl := Sum.inl.inj hp'
        rfl
      · obtain rfl := Sum.inl.inj hp'
        rfl
  | updateClient job weights =>
    apply on_submitStep rfl
    · exact .after (updateClientLastRound_frame _ _ _ _ _).2
    · rintro p' ⟨⟩
      rfl
  | recordSubmission job weights =>
    apply on_submitStep rfl
    · exact .after (recordWeightSubmission_frame _ _ _ _ _ _).2.2
    · rintro p' ⟨⟩
      rfl
  | add job weights => exact add_submitStep rfl
  | keyVersion job p =>
    apply SubmitStep.keyVersion rfl
    · rw [observe_events (by simp), List.append_nil] at hevents
      simp only [modelView, hevents]
      rfl
    · rfl
  | record job p v =>
    apply SubmitStep.recorded rfl
    · simp only [modelView, hevents]
      simp only [proceedSubmit, stepSubmitWeights, World.after, record_models,
        normalizeTenant_idem, normalizeModel_idem]
      rfl
    · simp only [proceedSubmit, stepSubmitWeights, submitting, recordAggregatedModel,
        normalizeTenant_idem, normalizeModel_idem]
  | publish job p v =>
    apply SubmitStep.published rfl
    · rw [observe_events (by simp), List.append_nil] at hevents
      simp only [modelView, hevents]
      rfl
    · apply unlocked_step
      rintro p' ⟨⟩
      exact afterAttempt_unlocked _ _ _
  | accept job result =>
    apply on_submitStep rfl
    · exact .after (acceptTrainingAssignmentSubmission_frame _ _ _ _ _ _ _ _ _).2
    · rintro p' ⟨⟩
      split
      · rfl
      · split
        · rfl
        · rfl
  | advance job result =>
    apply on_submitStep rfl
    · exact .after (advanceTrainingJobRound_frame _ _ _ _ _ _).2
    · rintro p' ⟨⟩
      rfl
  | respond response countClients =>
    apply on_submitStep rfl (.refl _)
    rintro p' ⟨⟩

end PqFl.CheckpointWrites
