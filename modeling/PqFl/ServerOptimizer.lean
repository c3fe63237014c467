import PqFl.CheckpointWrites

/-!
# The optimizer of the server

What is done to the aggregate of a round before it is published, and what of it
outlasts the round: the latest model and the velocity. The buffer keeps both by
scope. Here they are those of one scope, over any numbers, so that they can be
followed in exact arithmetic as well.
-/

set_option autoImplicit false

namespace PqFl.ServerOptimizer
open PqFl.Identifiers PqFl.Aggregation PqFl.Buffer PqFl.CheckpointWrites

section
variable {F : Type} [Arith F]

/-- The latest model and the velocity, as far as the buffer has them. -/
structure Optimizer (F : Type) where
  latest : Option (List F)
  velocity : Option (List F)

def smoothed (serverMomentum : F) (x : Optimizer F) (result : List F) : Optimizer F × List F :=
  match x.latest with
  | none => (x, result)
  | some latest =>
    if latest ≠ [] ∧ latest.length = result.length ∧ isPositive serverMomentum = true then
      let step := applyMomentum serverMomentum (x.velocity.getD []) latest result
      ({ x with velocity := some step.1 }, step.2)
    else (x, result)

/-- The aggregate with momentum, to which the noise is then added. -/
def unnoised (cfg : AggregationConfig F) (x : Optimizer F) (clients : WeightMap F)
    (sizes : SizeMap) (overflow : ℕ → F) : Optimizer F × List F :=
  smoothed cfg.serverMomentum x
    (aggregate overflow cfg.aggregationStrategy cfg.trimmedMeanBeta clients sizes)

def noised (cfg : AggregationConfig F) (clientCount : ℕ) (noise : ℕ → F) (result : List F) :
    List F :=
  if isPositive cfg.dpEpsilon then
    applyDifferentialPrivacy result cfg.clipNorm cfg.dpEpsilon cfg.dpDelta clientCount noise
  else result

def computed (cfg : AggregationConfig F) (x : Optimizer F) (clients : WeightMap F)
    (sizes : SizeMap) (noise overflow : ℕ → F) : Optimizer F × List F :=
  let (x, result) := unnoised cfg x clients sizes overflow
  (x, noised cfg clients.entries.length noise result)

/-- With all models which were published in the scope. -/
structure ScopeModels (F : Type) where
  optimizer : Optimizer F
  published : List (List F)

def noModels : ScopeModels F := ⟨⟨none, none⟩, []⟩

/-- A checkpoint that cannot be written leaves the velocity behind. A rollback and a
restart read a checkpoint again, the restart if there is one. -/
inductive ScopeAction (F : Type) where
  | aggregated (clients : WeightMap F) (sizes : SizeMap) (noise overflow : ℕ → F)
  | unwritten (clients : WeightMap F) (sizes : SizeMap) (noise overflow : ℕ → F)
  | restored (model : List F)
  | restarted (model : Option (List F))

def step (cfg : AggregationConfig F) (s : ScopeModels F) :
    ScopeAction F → Option (ScopeModels F)
  | .aggregated clients sizes noise overflow =>
    let (x, result) := computed cfg s.optimizer clients sizes noise overflow
    some ⟨⟨some result, x.velocity⟩, result :: s.published⟩
  | .unwritten clients sizes noise overflow =>
    some { s with optimizer := (computed cfg s.optimizer clients sizes noise overflow).1 }
  | .restored model => some { s with optimizer := ⟨some model, s.optimizer.velocity⟩ }
  | .restarted model => some { s with optimizer := ⟨model, none⟩ }

/-- Rollbacks and restarts read models that were published. -/
def Permitted (rounds : WeightMap F → SizeMap → Prop) (x : ScopeModels F) : ScopeAction F → Prop
  | .aggregated clients sizes _ _ => rounds clients sizes
  | .unwritten clients sizes _ _ => rounds clients sizes
  | .restored model => model ∈ x.published
  | .restarted model => ∀ p, model = some p → p ∈ x.published

theorem smoothed_latest (serverMomentum : F) (x : Optimizer F) (result : List F) :
    (smoothed serverMomentum x result).1.latest = x.latest := by
  unfold smoothed
  split
  · rfl
  · split
    · rfl
    · rfl

variable {cfg : AggregationConfig F} {s s' : ScopeModels F} {a : ScopeAction F}

/-- A property of models is kept by the step if it holds of what an aggregation publishes. -/
theorem step_published {P : List F → Prop} (h : ∀ p ∈ s.published, P p)
    (hnew : ∀ clients sizes noise overflow, a = .aggregated clients sizes noise overflow →
      P (computed cfg s.optimizer clients sizes noise overflow).2)
    (hs : step cfg s a = some s') : ∀ p ∈ s'.published, P p := by
  cases a with
  | aggregated clients sizes noise overflow =>
    rw [← Option.some.inj hs]
    intro p hp
    rcases List.mem_cons.mp hp with rfl | hold
    · exact hnew clients sizes noise overflow rfl
    · exact h p hold
  | unwritten clients sizes noise overflow =>
    rw [← Option.some.inj hs]
    exact h
  | restored model =>
    rw [← Option.some.inj hs]
    exact h
  | restarted model =>
    rw [← Option.some.inj hs]
    exact h

/-- The latest model stays one of the published ones. -/
theorem step_latest {rounds : WeightMap F → SizeMap → Prop}
    (h : ∀ p, s.optimizer.latest = some p → p ∈ s.published) (ha : Permitted rounds s a)
    (hs : step cfg s a = some s') : ∀ p, s'.optimizer.latest = some p → p ∈ s'.published := by
  cases a with
  | aggregated clients sizes noise overflow =>
    rw [← Option.some.inj hs]
    intro p hp
    rw [← Option.some.inj hp]
    exact List.mem_cons_self
  | unwritten clients sizes noise overflow =>
    have hkept : (computed cfg s.optimizer clients sizes noise overflow).1.latest =
        s.optimizer.latest :=
      smoothed_latest _ _ _
    rw [← Option.some.inj hs]
    intro p hp
    exact h p (hkept.symm.trans hp)
  | restored model =>
    rw [← Option.some.inj hs]
    intro p hp
    rw [← Option.some.inj hp]
    exact ha
  | restarted model =>
    rw [← Option.some.inj hs]
    exact ha

end

theorem Permitted.mono {F : Type} {rounds rounds' : WeightMap F → SizeMap → Prop}
    (hrounds : ∀ clients sizes, rounds clients sizes → rounds' clients sizes) {x : ScopeModels F}
    {a : ScopeAction F} (h : Permitted rounds x a) : Permitted rounds' x a := by
  cases a with
  | aggregated clients sizes noise overflow => exact hrounds _ _ h
  | unwritten clients sizes noise overflow => exact hrounds _ _ h
  | restored model => exact h
  | restarted model => exact h

variable {F : Type}

def optimizerOf (b : WeightBuffer F) (scope : String) : Optimizer F :=
  ⟨(b.latestModels.lookup scope).map (·.weights), b.optimizerVelocity.lookup scope⟩

theorem optimizerOf_removed (b : WeightBuffer F) (key clientId scope : String) :
    optimizerOf (removeSubmissionLocked b key clientId) scope = optimizerOf b scope := by
  rw [removeSubmissionLocked_eq]
  rfl

theorem optimizerOf_published (b : WeightBuffer F) (q : Submission F) (result : List F)
    (modelVersion : ℤ) :
    optimizerOf (publish b q result modelVersion).1 (scopeKey q.tenantId q.modelId) =
      ⟨some result, (optimizerOf b (scopeKey q.tenantId q.modelId)).velocity⟩ := by
  unfold optimizerOf publish
  rw [AList.lookup_insert]
  rfl

theorem optimizerOf_publishedOther (b : WeightBuffer F) (q : Submission F) (result : List F)
    (modelVersion : ℤ) {scope : String} (hscope : scope ≠ scopeKey q.tenantId q.modelId) :
    optimizerOf (publish b q result modelVersion).1 scope = optimizerOf b scope := by
  unfold optimizerOf publish
  rw [AList.lookup_insert_ne hscope]

theorem optimizerOf_restored (b : WeightBuffer F) (t m : String) (round modelVersion : ℤ)
    (weights : List F) :
    optimizerOf (restoreLatestGlobalModel b t m round modelVersion weights) (scopeKey t m) =
      ⟨some weights, (optimizerOf b (scopeKey t m)).velocity⟩ := by
  unfold optimizerOf restoreLatestGlobalModel
  rw [AList.lookup_insert]
  rfl

theorem optimizerOf_restoredOther (b : WeightBuffer F) (t m : String) (round modelVersion : ℤ)
    (weights : List F) {scope : String} (hscope : scope ≠ scopeKey t m) :
    optimizerOf (restoreLatestGlobalModel b t m round modelVersion weights) scope =
      optimizerOf b scope := by
  unfold optimizerOf restoreLatestGlobalModel
  rw [AList.lookup_insert_ne hscope]

variable [FloatArith F]

theorem optimizerOf_smooth (b : WeightBuffer F) (serverMomentum : F) (scope : String)
    (result : List F) :
    (optimizerOf (smooth b serverMomentum scope result).1 scope,
      (smooth b serverMomentum scope result).2) =
        smoothed serverMomentum (optimizerOf b scope) result := by
  unfold smooth smoothed optimizerOf
  cases hlatest : b.latestModels.lookup scope with
  | none => simp [hlatest]
  | some latest =>
    simp only [Option.map_some]
    split
    · rw [AList.lookup_insert, hlatest]
      rfl
    · rw [hlatest]
      rfl

theorem optimizerOf_computed (b : WeightBuffer F) (cfg : AggregationConfig F) (q : Submission F)
    (noise overflow : ℕ → F) :
    (optimizerOf (computeAggregate b cfg q noise overflow).1 (scopeKey q.tenantId q.modelId),
      (computeAggregate b cfg q noise overflow).2) =
        computed cfg (optimizerOf b (scopeKey q.tenantId q.modelId))
          (submissions b (roundKey q.tenantId q.modelId q.round))
          (datasetSizes b (roundKey q.tenantId q.modelId q.round)) noise overflow := by
  have hsmooth := optimizerOf_smooth b cfg.serverMomentum (scopeKey q.tenantId q.modelId)
    (aggregate overflow cfg.aggregationStrategy cfg.trimmedMeanBeta
      (submissions b (roundKey q.tenantId q.modelId q.round))
      (datasetSizes b (roundKey q.tenantId q.modelId q.round)))
  unfold computed unnoised
  rw [← hsmooth]
  rfl

/-- The step of a submission which completes its round. -/
def ownStep (cfg : AggregationConfig F) (b : WeightBuffer F) (q : Submission F)
    (noise overflow : ℕ → F) : Optimizer F × List F :=
  let inserted := insertSubmission b cfg.clipNorm q
  computed cfg (optimizerOf b (scopeKey q.tenantId q.modelId))
    (submissions inserted (roundKey q.tenantId q.modelId q.round))
    (datasetSizes inserted (roundKey q.tenantId q.modelId q.round)) noise overflow

/-- A submission takes the step when it completes its round; otherwise it leaves the
optimizer alone, unless only the checkpoint could not be written. -/
theorem optimizerOf_added {P : Crypto.Primitives} {cfg : AggregationConfig F}
    {e : Crypto.CryptoEngine} {files files' : CheckpointFiles} {b b' : WeightBuffer F}
    {q : Submission F} {draw : Draw F} {attempt : Attempt F}
    (h : addWeight P cfg e files b q draw = (b', files', attempt)) :
    (∃ p, attempt = .prepared p ∧ Aggregates cfg b q ∧
      (optimizerOf b' (scopeKey q.tenantId q.modelId), p.result) =
        ownStep cfg b q draw.noise draw.overflow) ∨
    (∃ outcome, attempt = .returned outcome ∧
      (optimizerOf b' (scopeKey q.tenantId q.modelId) =
          optimizerOf b (scopeKey q.tenantId q.modelId) ∨
        Aggregates cfg b q ∧
          optimizerOf b' (scopeKey q.tenantId q.modelId) =
            (ownStep cfg b q draw.noise draw.overflow).1)) := by
  have hcomputed := optimizerOf_computed (insertSubmission b cfg.clipNorm q) cfg q draw.noise
    draw.overflow
  unfold addWeight at h
  dsimp only at h
  split at h
  · cases h
    exact .inr ⟨_, rfl, .inl rfl⟩
  rename_i hopen
  split at h
  · cases h
    exact .inr ⟨_, rfl, .inl rfl⟩
  rename_i henough
  split at h
  · cases h
    exact .inr ⟨_, rfl, .inl rfl⟩
  rename_i hvalid
  have haggregates : Aggregates cfg b q := ⟨hopen, not_lt.mp henough, not_not.mp hvalid⟩
  generalize computeAggregate (insertSubmission b cfg.clipNorm q) cfg q draw.noise draw.overflow =
    aggregate at h hcomputed
  obtain ⟨after, result⟩ := aggregate
  have hvelocity : optimizerOf after (scopeKey q.tenantId q.modelId) =
      (ownStep cfg b q draw.noise draw.overflow).1 := congrArg Prod.fst hcomputed
  cases hwritten : draw.persistence with
  | written =>
    simp only [persist, hwritten] at h
    cases h
    exact .inl ⟨_, rfl, haggregates, hcomputed⟩
  | cannotOpen =>
    simp only [persist, hwritten] at h
    cases h
    exact .inr ⟨_, rfl, .inr ⟨haggregates, hvelocity⟩⟩
  | shortWrite =>
    simp only [persist, hwritten] at h
    cases h
    exact .inr ⟨_, rfl, .inr ⟨haggregates, hvelocity⟩⟩
  | threw what =>
    simp only [persist, hwritten] at h
    cases h
    exact .inr ⟨_, rfl, .inr ⟨haggregates, hvelocity⟩⟩

theorem optimizerOf_other (P : Crypto.Primitives) (cfg : AggregationConfig F)
    (e : Crypto.CryptoEngine) (files : CheckpointFiles) (b : WeightBuffer F) (q : Submission F)
    (draw : Draw F) {scope : String} (hscope : scope ≠ scopeKey q.tenantId q.modelId) :
    optimizerOf (addWeight P cfg e files b q draw).1 scope = optimizerOf b scope := by
  have hcomputed : optimizerOf (computeAggregate (insertSubmission b cfg.clipNorm q) cfg q
      draw.noise draw.overflow).1 scope = optimizerOf b scope := by
    unfold computeAggregate smooth optimizerOf
    dsimp only
    split
    · rfl
    · split
      · dsimp only
        rw [AList.lookup_insert_ne hscope]
        rfl
      · rfl
  unfold addWeight
  dsimp only
  split
  · rfl
  split
  · rfl
  split
  · exact optimizerOf_removed _ _ _ _
  · unfold persist
    cases draw.persistence with
    | written => exact hcomputed
    | _ => exact (optimizerOf_removed _ _ _ _).trans hcomputed

end PqFl.ServerOptimizer
